import Mathlib
import Polyhedra.Operator.Basic
import Polyhedra.Proofs.Flag.Mirror
import Polyhedra.Proofs.Operator.Chamfer
import Polyhedra.Proofs.Operator.Pinch
import Polyhedra.Proofs.Operator.Quinto
import Polyhedra.Proofs.Operator.Reflection
import Polyhedra.Proofs.Operator.Ridges
import Polyhedra.Proofs.Operator.Turning

/-!
# Mirror images

Writing every face backwards turns all flags of dual, ambo, chamfer and
quinto around, while the keys of vertices and faces stay what they were.  So
these operators commute with reflection, up to the corners at which the faces
of the output start.
-/

namespace Polyhedra

/-! ## Incidences -/

namespace Incidence

variable {M : Incidence ℕ ℕ}

theorem ambo_of_reverse {f : ℕ ⊕ ℕ} {v w : Sym2 ℕ}
    (h : ambo M.reverse f v w) : ambo M f w v := by
  obtain ⟨i, a, b, c, hba, hcb, ⟨rfl, rfl, rfl⟩ | ⟨rfl, rfl, rfl⟩⟩ :=
    ambo_iff.mp h
  · exact ambo_iff.mpr
      ⟨i, c, b, a, hcb, hba, .inl ⟨rfl, Sym2.eq_swap, Sym2.eq_swap⟩⟩
  · exact ambo_iff.mpr
      ⟨i, c, b, a, hcb, hba, .inr ⟨rfl, Sym2.eq_swap, Sym2.eq_swap⟩⟩

theorem chamfer_of_reverse {f v w : IndexRole}
    (h : chamfer M.reverse f v w) : chamfer M f w v := by
  obtain ⟨i, a, b, hba, ⟨rfl, rfl, rfl⟩ | ⟨rfl, hstep⟩⟩ := chamfer_iff.mp h
  · exact chamfer_iff.mpr ⟨i, b, a, hba, .inl ⟨rfl, rfl, rfl⟩⟩
  · refine chamfer_iff.mpr ⟨i, b, a, hba, .inr ⟨congrArg _ Sym2.eq_swap, ?_⟩⟩
    rcases hstep with ⟨rfl, rfl⟩ | ⟨rfl, rfl⟩ | ⟨rfl, rfl⟩
    · exact .inr (.inr ⟨rfl, rfl⟩)
    · exact .inr (.inl ⟨rfl, rfl⟩)
    · exact .inl ⟨rfl, rfl⟩

theorem quinto_of_reverse
    (hM : M.Closed)
    {f v w : IndexRole}
    (h : quinto M.reverse f v w) : quinto M f w v := by
  obtain ⟨i, a, b, c, hba, hcb, hf⟩ := (quinto_iff hM.reverse.toCyclic).mp h
  refine (quinto_iff hM.toCyclic).mpr ⟨i, c, b, a, hcb, hba, ?_⟩
  rw [Sym2.eq_swap (a := c), Sym2.eq_swap (a := b) (b := a)]
  rcases hf with ⟨rfl, hstep⟩ | ⟨rfl, rfl, rfl⟩
  · exact .inl ⟨rfl, Face.mem_steps_reverse.mpr hstep⟩
  · exact .inr ⟨rfl, rfl, rfl⟩

theorem ambo_reverse (f : ℕ ⊕ ℕ) (v w : Sym2 ℕ) :
    ambo M.reverse f v w ↔ ambo M f w v :=
  ⟨ambo_of_reverse, fun h => ambo_of_reverse (M := M.reverse) h⟩

theorem chamfer_reverse (f v w : IndexRole) :
    chamfer M.reverse f v w ↔ chamfer M f w v :=
  ⟨chamfer_of_reverse, fun h => chamfer_of_reverse (M := M.reverse) h⟩

theorem quinto_reverse (hM : M.Closed) (f v w : IndexRole) :
    quinto M.reverse f v w ↔ quinto M f w v :=
  ⟨quinto_of_reverse hM, fun h => quinto_of_reverse hM.reverse h⟩

end Incidence

/-! ## Reflected meshes -/

namespace Surface

theorem flatMap_edges_flip (surface : Surface) :
    (surface.flip.flatMap Face.edges).Perm
      ((surface.flatMap Face.edges).map Prod.swap) := by
  rw [flip, List.flatMap_map, List.map_flatMap]
  exact List.Perm.flatMap_left surface fun face _ =>
    Face.steps_reverse_perm face

theorem checkClosed_flip {surface : Surface}
    (h : surface.checkClosed = .ok ()) :
    surface.flip.checkClosed = .ok () := by
  obtain ⟨hlong, hnodup, hpaired⟩ := checkClosed_eq_ok_iff.mp h
  refine checkClosed_eq_ok_iff.mpr ⟨?_, ?_, fun i v w hvw => ?_⟩
  · intro face hface
    obtain ⟨other, hother, rfl⟩ := List.mem_map.mp hface
    rw [List.length_reverse]
    exact hlong other hother
  · rw [(flatMap_edges_flip surface).nodup_iff]
    exact hnodup.map Prod.swap_injective
  · rw [incidence_flip] at hvw ⊢
    exact hpaired i w v hvw

theorem checkClosed_flip_iff {surface : Surface} :
    surface.flip.checkClosed = .ok () ↔ surface.checkClosed = .ok () := by
  refine ⟨fun h => ?_, checkClosed_flip⟩
  rw [← surface.flip_flip]
  exact checkClosed_flip h

end Surface

namespace Mesh

variable {mesh out out' : Mesh}

theorem vertexCount_reflect : mesh.reflect.vertexCount = mesh.vertexCount :=
  Array.size_map

theorem faceCount_reflect : mesh.reflect.faceCount = mesh.faceCount :=
  List.length_map _

theorem incidence_reflect :
    mesh.reflect.faces.incidence = mesh.faces.incidence.reverse :=
  Surface.incidence_flip

theorem Closed.reflect (h : mesh.Closed) : mesh.reflect.Closed where
  closed := Surface.checkClosed_flip h.closed
  simple face hface := by
    obtain ⟨other, hother, rfl⟩ := List.mem_map.mp hface
    exact List.nodup_reverse.mpr (h.simple other hother)
  inRange face hface v hv := by
    obtain ⟨other, hother, rfl⟩ := List.mem_map.mp hface
    rw [vertexCount_reflect]
    exact h.inRange other hother v (List.mem_reverse.mp hv)

theorem turnsInto_reflect
    (h : out'.vertexCount = out.vertexCount ∧
      List.Forall₂ (fun face face' => face.reverse ~r face')
        out.faces out'.faces) :
    out.reflect.TurnsInto out' where
  vertexCount := h.1.trans vertexCount_reflect.symm
  faces := List.forall₂_map_left_iff.mpr h.2

namespace Closed

variable (h : mesh.Closed) (hfits : mesh.Fits)
include h hfits

theorem dual_reflect :
    Except.Related (fun out out' => out.reflect.TurnsInto out') mesh.dual
      mesh.reflect.dual := by
  have hclosed := h.incidence
  obtain ⟨flags, hflags, hmem⟩ := Surface.exists_dualFlags hclosed
  obtain ⟨flags', hflags', hmem'⟩ :=
    Surface.exists_dualFlags h.reflect.incidence
  rw [incidence_reflect] at hmem'
  have hface : Set.InjOn IndexKey.single
      (Incidence.faces (F := ℕ) mesh.faces.incidence.Around) := by
    rw [hclosed.faces_around]
    exact h.injOn_single_tails hfits
  have hkey : Set.InjOn IndexKey.single
      (Incidence.tails (F := ℕ) mesh.faces.incidence.Around) := by
    rw [hclosed.tails_around]
    exact injOn_single_faces hfits
  have hsites : ∀ key, key ∈ mesh.reflect.dualSites.map Prod.fst ↔
      key ∈ mesh.dualSites.map Prod.fst := by
    intro key
    rw [mem_dualSites_iff, mem_dualSites_iff, faceCount_reflect]
  rw [h.inRange.dual_eq hflags, h.reflect.inRange.dual_eq hflags']
  exact (Blueprint.build_turned (fun _ _ _ => Incidence.around_reverse)
      hclosed.permuting_around hface hkey hmem hmem' hsites _ _).mono
    fun _ _ => turnsInto_reflect

theorem ambo_reflect :
    Except.Related (fun out out' => out.reflect.TurnsInto out') mesh.ambo
      mesh.reflect.ambo := by
  have hclosed := h.incidence
  have hpermuting := Incidence.ambo_permuting hclosed
  have hface : Set.InjOn mesh.faces.amboFace
      (Incidence.ambo mesh.faces.incidence).faces := by
    rw [Incidence.faces_ambo hclosed]
    exact h.inRange.injOn_amboFace hfits
  have hkey : Set.InjOn (IndexRole.key ∘ .edge)
      (Incidence.ambo mesh.faces.incidence).tails := by
    rw [Incidence.tails_ambo hclosed]
    exact h.inRange.injOn_edgeKey hfits
  have hflags : ∀ f v w, ⟨f, v, w⟩ ∈ mesh.reflect.faces.amboFlags ↔
      (Incidence.ambo mesh.faces.incidence.reverse).rename
        mesh.faces.amboFace (IndexRole.key ∘ .edge) f v w := by
    intro f v w
    have hindex : mesh.reflect.faces.amboFace = mesh.faces.amboFace := by
      unfold Surface.amboFace
      rw [show mesh.reflect.faces.length =
        mesh.faces.length from faceCount_reflect]
    rw [Surface.mem_amboFlags_iff h.reflect.simple, incidence_reflect,
      hindex]
  have hsites : ∀ key, key ∈ mesh.reflect.amboSites.map Prod.fst ↔
      key ∈ mesh.amboSites.map Prod.fst := by
    intro key
    rw [mem_amboSites_iff h.simple, mem_amboSites_iff h.reflect.simple,
      ← Incidence.tails_ambo hclosed,
      ← Incidence.tails_ambo h.reflect.incidence, incidence_reflect,
      Incidence.tails_turned Incidence.ambo_reverse hpermuting]
  unfold Mesh.ambo
  rw [requireInRange_bind h.inRange, requireInRange_bind h.reflect.inRange]
  exact (Blueprint.build_turned Incidence.ambo_reverse hpermuting hface hkey
    (fun _ _ _ => Surface.mem_amboFlags_iff h.simple) hflags hsites _ _).mono
      fun _ _ => turnsInto_reflect

theorem chamfer_reflect (depth : Float) :
    Except.Related (fun out out' => out.reflect.TurnsInto out')
      (mesh.chamfer depth) (mesh.reflect.chamfer depth) := by
  have hclosed := h.incidence
  have hindices :=
    h.inRange.indicesFit hfits.vertexCount_le hfits.faceCount_le
  have hpermuting := (Incidence.chamfer_closed hclosed).toCyclic.toPermuting
  have hflags : ∀ f v w, ⟨f, v, w⟩ ∈ mesh.reflect.faces.chamferFlags ↔
      (Incidence.chamfer mesh.faces.incidence.reverse).rename IndexRole.key
        IndexRole.key f v w := by
    intro f v w
    rw [Surface.mem_chamferFlags_iff, incidence_reflect]
  have hsites : ∀ key, key ∈ (mesh.reflect.chamferSites depth).map Prod.fst ↔
      key ∈ (mesh.chamferSites depth).map Prod.fst := by
    intro key
    rw [mem_chamferSites_iff hclosed,
      mem_chamferSites_iff h.reflect.incidence, incidence_reflect,
      Incidence.tails_turned Incidence.chamfer_reverse hpermuting]
  unfold Mesh.chamfer
  rw [requireInRange_bind h.inRange, requireInRange_bind h.reflect.inRange]
  exact (Blueprint.build_turned Incidence.chamfer_reverse hpermuting
      (injOn_key_chamfer_faces hindices)
      (injOn_key_chamfer_tails hindices hclosed)
      (fun _ _ _ => Surface.mem_chamferFlags_iff) hflags hsites _ _).mono
    fun _ _ => turnsInto_reflect

theorem quinto_reflect :
    Except.Related (fun out out' => out.reflect.TurnsInto out') mesh.quinto
      mesh.reflect.quinto := by
  have hclosed := h.incidence
  have hindices :=
    h.inRange.indicesFit hfits.vertexCount_le hfits.faceCount_le
  have hpermuting := (Incidence.quinto_closed hclosed).toCyclic.toPermuting
  have hturned := Incidence.quinto_reverse hclosed
  have hflags : ∀ f v w, ⟨f, v, w⟩ ∈ mesh.reflect.faces.quintoFlags ↔
      (Incidence.quinto mesh.faces.incidence.reverse).rename IndexRole.key
        IndexRole.key f v w := by
    intro f v w
    rw [Surface.mem_quintoFlags_iff h.reflect.simple, incidence_reflect]
  have hsites : ∀ key, key ∈ mesh.reflect.quintoSites.map Prod.fst ↔
      key ∈ mesh.quintoSites.map Prod.fst := by
    intro key
    rw [mem_quintoSites_iff h.simple hclosed,
      mem_quintoSites_iff h.reflect.simple h.reflect.incidence,
      incidence_reflect, Incidence.tails_turned hturned hpermuting]
  unfold Mesh.quinto
  rw [requireInRange_bind h.inRange, requireInRange_bind h.reflect.inRange]
  exact (Blueprint.build_turned hturned hpermuting (injOn_key_quinto_faces
    hindices hclosed) (injOn_key_quinto_tails hindices) (fun _ _ _ =>
    Surface.mem_quintoFlags_iff h.simple) hflags hsites _ _).mono fun _ _ =>
    turnsInto_reflect

end Closed
end Mesh

namespace Operator

/-- The operator does the same to a mesh and to its mirror image. -/
def CommutesWithReflection : Operator → Prop
  | dual | ambo | chamfer _ | quinto => True
  | _ => False

theorem transform_reflect_related {op : Operator}
    (hop : op.CommutesWithReflection)
    {mesh : Mesh}
    (h : mesh.Closed)
    (hfits : mesh.Fits) :
    Except.Related (fun out out' => out.reflect.TurnsInto out')
      (op.transform mesh) (op.transform mesh.reflect) := by
  cases op with
  | dual => exact h.dual_reflect hfits
  | ambo => exact h.ambo_reflect hfits
  | chamfer depth => exact h.chamfer_reflect hfits depth
  | quinto => exact h.quinto_reflect hfits
  | _ => exact hop.elim

/-- Dual, ambo, chamfer and quinto make of the mirror image of a closed mesh
the mirror image of what they make of the mesh, with the faces in the same
order, or fail on both.  A mesh is closed when its mirror image is, and
reflecting twice restores the faces. -/
theorem transform_reflect :
    (∀ (mesh : Mesh) (op : Operator), mesh.Closed → mesh.Fits →
        op.CommutesWithReflection →
        ((∃ out', op.transform mesh.reflect = .ok out') ↔
          ∃ out, op.transform mesh = .ok out) ∧
        ∀ out out', op.transform mesh = .ok out →
          op.transform mesh.reflect = .ok out' →
          out'.vertexCount = out.vertexCount ∧
            out'.faceCount = out.faceCount ∧
            ∀ (k : ℕ) (face : Face), out.reflect.faces[k]? = some face →
              ∃ turned, out'.faces[k]? = some turned ∧ turned ~r face) ∧
      (∀ mesh : Mesh, mesh.reflect.faces.checkClosed = .ok () ↔
        mesh.faces.checkClosed = .ok ()) ∧
      ∀ mesh : Mesh, mesh.reflect.reflect.faces = mesh.faces := by
  refine ⟨fun mesh op h hfits hop => ?_, fun mesh =>
    Surface.checkClosed_flip_iff, fun mesh => mesh.faces.flip_flip⟩
  obtain ⟨hok, hout⟩ :=
    Except.related_iff.mp (transform_reflect_related hop h hfits)
  refine ⟨hok.symm, fun out out' htransform htransform' => ?_⟩
  have hturns := hout out out' htransform htransform'
  refine ⟨hturns.vertexCount.trans Mesh.vertexCount_reflect,
    hturns.faceCount.trans Mesh.faceCount_reflect, fun k face hface => ?_⟩
  obtain ⟨hk, rfl⟩ := List.getElem?_eq_some_iff.mp hface
  have hk' : k < out'.faces.length := hturns.faces.length_eq ▸ hk
  exact ⟨_, List.getElem?_eq_getElem hk', (hturns.faces.get hk hk').symm⟩

/-- Two tetrahedra that share a vertex can be chamfered on both sides of the
mirror, and have no dual on either. -/
theorem transform_reflect_pinched :
    Mesh.pinchedTetrahedra.Closed ∧ Mesh.pinchedTetrahedra.Fits ∧
      CommutesWithReflection (.chamfer 0.5) ∧ CommutesWithReflection .dual ∧
      (∃ out out',
        transform Mesh.pinchedTetrahedra (.chamfer 0.5) = .ok out ∧
        transform Mesh.pinchedTetrahedra.reflect (.chamfer 0.5) = .ok out' ∧
        out'.vertexCount = out.vertexCount ∧ out'.faceCount = out.faceCount ∧
        ∀ (k : ℕ) (face : Face), out.reflect.faces[k]? = some face →
          ∃ turned, out'.faces[k]? = some turned ∧ turned ~r face) ∧
      (¬ ∃ out, transform Mesh.pinchedTetrahedra.reflect .dual = .ok out) ∧
      Mesh.pinchedTetrahedra.reflect.faces.checkClosed = .ok () ∧
      Mesh.pinchedTetrahedra.reflect.reflect.faces =
        Mesh.pinchedTetrahedra.faces := by
  have h := Mesh.pinchedTetrahedra_closed
  have hfits : Mesh.pinchedTetrahedra.Fits := by
    unfold Mesh.Fits
    decide
  obtain ⟨hcommutes, hclosed, htwice⟩ := transform_reflect
  obtain ⟨hok, hchamfer⟩ := hcommutes _ (.chamfer 0.5) h hfits trivial
  obtain ⟨out, -, -, hout, -⟩ :=
    h.exists_chamfer Mesh.pinchedTetrahedra_indicesFit 0.5
  obtain ⟨out', hout'⟩ := hok.mpr ⟨out, hout⟩
  have hpinched : ¬ Mesh.pinchedTetrahedra.faces.Unpinched := fun hrings =>
    Mesh.pinchedTetrahedra_firstPinched.pinched
      (hrings [0, 2, 3] (by decide) 3 (by decide))
  refine ⟨h, hfits, trivial, trivial,
    ⟨out, out', hout, hout', hchamfer out out' hout hout'⟩,
    fun hdual => ?_, (hclosed _).mpr h.closed, htwice _⟩
  have hunreflected := (hcommutes _ .dual h hfits trivial).1.mp hdual
  exact hpinched ((h.dual_outcome hfits).1.mp hunreflected)

end Operator
end Polyhedra
