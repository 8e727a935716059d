import Mathlib
import Polyhedra.Operator.Basic
import Polyhedra.Proofs.Operator.Kis
import Polyhedra.Proofs.Operator.Turning

/-!
# Starting corners carry no information

Kis walks its triangles and keeps other faces as they are, so these keep
their starting corners; its output shows the kept faces literally, because
the vertices keep their indices.  Truncation goes through the dual, after
which nothing is left of the starting corners.  Since the dual of the dual
gives a mesh back up to where its faces start, two duals in a row can be
cancelled.
-/

namespace Polyhedra

namespace Mesh

variable {mesh turned : Mesh}

/-! ## Kis -/

section Kis

theorem slot_lt_apex
    (hvertices : mesh.vertexCount ≤ IndexKey.maxIndex)
    {v i : ℕ}
    (hv : v < mesh.vertexCount) :
    IndexKey.slot v < (IndexKey.apex mesh.vertexCount i).first := by
  simp only [IndexKey.apex, IndexKey.single, IndexKey.slot]
  omega

variable (hrange : mesh.InRange)
  (hvertices : mesh.vertexCount ≤ IndexKey.maxIndex)
include hrange hvertices

theorem nodup_triangle
    (hpolygonal : mesh.faces.incidence.Polygonal)
    {i a b : ℕ}
    (hab : mesh.faces.incidence i a b) :
    [IndexKey.single a, .single b, .apex mesh.vertexCount i].Nodup := by
  have hlt :
      ∀ {v}, v ∈ mesh.faces.incidence.tails → v < mesh.vertexCount := by
    intro v hv
    obtain ⟨face, hface, hmem⟩ := Surface.mem_tails_iff.mp hv
    exact hrange face hface v hmem
  have ha := hlt (Incidence.mem_tails hab)
  have hb := hlt (hpolygonal.head_mem_tails hab)
  have hcorners : IndexKey.single a ≠ .single b := fun heq =>
    hpolygonal.ne hab (IndexKey.single_inj (ha.le.trans hvertices)
      (hb.le.trans hvertices) heq)
  have hapex : ∀ {v}, v < mesh.vertexCount →
      IndexKey.single v ≠ .apex mesh.vertexCount i :=
    fun hv heq =>
      (slot_lt_apex hvertices hv).ne (congrArg IndexKey.first heq)
  simp [hcorners, hapex ha, hapex hb]

theorem kisFlags_determinate
    (hpolygonal : mesh.faces.incidence.Polygonal)
    (hfaces : mesh.faceCount ≤ IndexKey.maxIndex)
    (sides : ℕ) :
    Flag.Determinate (mesh.faces.kisFlags mesh.vertexCount sides) := by
  rintro ⟨f, v, w⟩ hflag ⟨_, _, w'⟩ hother rfl rfl
  obtain ⟨i, a, b, hab, -, rfl, hstep⟩ := Surface.mem_kisFlags_iff.mp hflag
  obtain ⟨j, c, d, hcd, -, heq, hstep'⟩ := Surface.mem_kisFlags_iff.mp hother
  obtain ⟨rfl, rfl⟩ :=
    IndexKey.pair_inj (face_fits hfaces (Incidence.mem_faces hcd))
      (hrange.vertex_fits hvertices (Incidence.mem_tails hcd))
      (face_fits hfaces (Incidence.mem_faces hab))
      (hrange.vertex_fits hvertices (Incidence.mem_tails hab)) heq
  obtain rfl := hpolygonal.head_unique hab hcd
  exact Face.step_head_unique
    (nodup_triangle hrange hvertices hpolygonal hab) hstep hstep'

/-- Within one triangle there are the steps between its three keys. -/
theorem kisFlags_step_iff
    (hpolygonal : mesh.faces.incidence.Polygonal)
    (hfaces : mesh.faceCount ≤ IndexKey.maxIndex)
    {sides i a b : ℕ}
    (hi : mesh.faces.Selects sides i)
    (hab : mesh.faces.incidence i a b)
    {v w : IndexKey} :
    ⟨.pair i a, v, w⟩ ∈ mesh.faces.kisFlags mesh.vertexCount sides ↔
      (v, w) ∈
        Face.steps [.single a, .single b, .apex mesh.vertexCount i] := by
  rw [Surface.mem_kisFlags_iff]
  constructor
  · rintro ⟨j, c, d, hcd, -, heq, hstep⟩
    obtain ⟨rfl, rfl⟩ :=
      IndexKey.pair_inj (face_fits hfaces (Incidence.mem_faces hcd))
        (hrange.vertex_fits hvertices (Incidence.mem_tails hcd))
        (face_fits hfaces (Incidence.mem_faces hab))
        (hrange.vertex_fits hvertices (Incidence.mem_tails hab)) heq
    rwa [hpolygonal.head_unique hab hcd]
  · exact fun hstep => ⟨i, a, b, hab, hi, rfl, hstep⟩

end Kis

theorem mem_kisBlueprint_positions {sides : ℕ} {height : Float}
    {key : IndexKey} :
    key ∈ (mesh.kisBlueprint sides height).system.positions ↔
      (∃ v < mesh.vertexCount, .single v = key) ∨
      ∃ i < mesh.faceCount, mesh.faces.Selects sides i ∧
        .apex mesh.vertexCount i = key := by
  rw [Blueprint.mem_positions_iff, mem_kisBlueprint_sites_iff]

/-- Below the key of an input vertex there are the keys of the vertices
before it. -/
theorem kisBlueprint_rank_single
    (hvertices : mesh.vertexCount ≤ IndexKey.maxIndex)
    {sides : ℕ} {height : Float} {v : ℕ}
    (hv : v < mesh.vertexCount) :
    (mesh.kisBlueprint sides height).system.rank (.single v) = v := by
  refine FlagSystem.rank_of_numbered _ IndexKey.single (fun a b hab hb =>
      IndexKey.compare_single hab (hb.le.trans hvertices)) hv
    (fun u hu => mem_kisBlueprint_positions.mpr (.inl ⟨u, hu.trans hv, rfl⟩))
    fun other hother hlt => ?_
  rcases mem_kisBlueprint_positions.mp hother with hcorner | ⟨i, -, -, rfl⟩
  · exact hcorner
  · exact absurd (IndexKey.first_le_of_compare hlt)
      (slot_lt_apex hvertices hv).not_ge

theorem length_eq_three_of_kis
    (hrange : mesh.InRange)
    (hvertices : mesh.vertexCount ≤ IndexKey.maxIndex)
    (hpolygonal : mesh.faces.incidence.Polygonal)
    (hfaces : mesh.faceCount ≤ IndexKey.maxIndex)
    {sides : ℕ} {height : Float} {solid : Solid}
    (hsolid : (mesh.kisBlueprint sides height).system.resolve = .ok solid) :
    ∀ face ∈ solid.faces, face.length = 3 := by
  intro face hface
  obtain ⟨f, hf, hlisted⟩ :=
    (FlagSystem.lists_of_resolve hsolid).exists_key hface
  obtain ⟨⟨_, x, y⟩, hflag, rfl⟩ := Blueprint.mem_faces_iff.mp hf
  obtain ⟨i, a, b, hab, hi, rfl, -⟩ := Surface.mem_kisFlags_iff.mp hflag
  have hrotated := hlisted.isRotated_of_steps (by simp)
    (nodup_triangle hrange hvertices hpolygonal hab) fun v w =>
      (Blueprint.system_incidence_iff_of_determinate (kisFlags_determinate
          hrange hvertices hpolygonal hfaces sides)).trans
        (kisFlags_step_iff hrange hvertices hpolygonal hfaces hi hab)
  exact hrotated.perm.length_eq

/-- The polygons of kis are the faces that are kept. -/
theorem map_rank_kisPolygons
    (hvertices : mesh.vertexCount ≤ IndexKey.maxIndex)
    {other : Surface}
    (hother : other.InRange mesh.vertexCount)
    {sides : ℕ} {height : Float} :
    (other.kisPolygons sides).map
        (List.map (mesh.kisBlueprint sides height).system.rank) =
      other.filter fun face => !Face.passes sides face.length := by
  rw [Surface.kisPolygons, List.map_map]
  refine (List.map_congr_left fun face hface => ?_).trans (List.map_id _)
  rw [Function.comp_apply, List.map_map]
  refine (List.map_congr_left fun v hv => ?_).trans (List.map_id _)
  exact kisBlueprint_rank_single hvertices
    (hother face (List.mem_filter.mp hface).1 v hv)

/-- Kis gives the same triangles and keeps the same faces. -/
theorem kis_turned
    (hclosed : mesh.faces.incidence.Closed)
    (hrange : mesh.InRange)
    (h : mesh.TurnsInto turned)
    (hvertices : mesh.vertexCount ≤ IndexKey.maxIndex)
    (hfaces : mesh.faceCount ≤ IndexKey.maxIndex)
    (sides : ℕ) (height : Float) :
    Except.Related (fun out out' => out'.vertexCount = out.vertexCount ∧
        ∃ triangles : List Face, (∀ face ∈ triangles, face.length = 3) ∧
          out.faces = triangles ++
          mesh.faces.filter (fun face => !Face.passes sides face.length) ∧
          out'.faces = triangles ++
          turned.faces.filter fun face => !Face.passes sides face.length)
      (mesh.kis sides height) (turned.kis sides height) := by
  have hdeterminate :=
    kisFlags_determinate hrange hvertices hclosed.polygonal hfaces sides
  have halike : (mesh.kisBlueprint sides height).Alike
      (turned.kisBlueprint sides height) := by
    apply Blueprint.Alike.of_flags
    · simp only [kisBlueprint, Surface.kisFlags, h.vertexCount]
      apply Surface.foldl_setFlag_turned h.faces
      · intro face face' i hrotated
        simp only [hrotated.perm.length_eq]
        split
        · exact (Face.arrivals_perm hrotated).flatMap_right _
        · rfl
      · exact fun entry hentry => hdeterminate.mono fun flag hflag =>
          List.mem_flatMap.mpr ⟨entry, hentry, hflag⟩
    · intro key
      rw [← Blueprint.mem_positions_iff, ← Blueprint.mem_positions_iff,
        mem_kisBlueprint_positions, mem_kisBlueprint_positions,
        h.vertexCount, h.faceCount]
      simp only [h.selects]
    · refine List.forall₂_map_left_iff.mpr
        (List.forall₂_map_right_iff.mpr ?_)
      exact (h.kept sides).imp fun _ _ hrotated => hrotated.map _
  refine h.ranged hrange ((halike.build _ _).mono ?_)
  rintro out out' ⟨hcount, solid, hsolid, hout, hout'⟩
  refine ⟨hcount, solid.faces,
    length_eq_three_of_kis hrange hvertices hclosed.polygonal hfaces hsolid,
    ?_, ?_⟩
  · exact hout.trans (congrArg _ (map_rank_kisPolygons hvertices hrange))
  · refine hout'.trans (congrArg _ (map_rank_kisPolygons hvertices ?_))
    exact fun face hface v hv =>
      (h.inRange hrange face hface v hv).trans_eq h.vertexCount

/-! ## Chains of operators -/

namespace SameFaces

variable {other : Mesh} (h : mesh.SameFaces other)
include h

theorem inRange_iff : other.InRange ↔ mesh.InRange := by
  unfold InRange
  rw [h.faces, h.vertexCount]

theorem faceCount : other.faceCount = mesh.faceCount :=
  congrArg List.length h.faces

theorem dual : Except.Related SameFaces mesh.dual other.dual := by
  unfold Mesh.dual
  refine (requireInRange_related h.inRange_iff).bind fun _ _ _ => ?_
  rw [h.faces]
  cases mesh.faces.dualFlags with
  | error fault => trivial
  | ok flags =>
      have halike : Blueprint.Alike { sites := mesh.dualSites, flags }
          { sites := other.dualSites, flags } := by
        refine .of_flags rfl (fun key => ?_) .nil
        rw [mem_dualSites_iff, mem_dualSites_iff, h.faceCount]
      refine (halike.build _ _).mono ?_
      rintro out out' ⟨hcount, solid, -, hout, hout'⟩
      exact ⟨hcount, hout'.trans hout.symm⟩

theorem kis (sides : ℕ) (height : Float) :
    Except.Related SameFaces (mesh.kis sides height)
      (other.kis sides height) := by
  have halike : (mesh.kisBlueprint sides height).Alike
      (other.kisBlueprint sides height) := by
    apply Blueprint.Alike.of_flags
    · simp only [kisBlueprint, h.faces, h.vertexCount]
    · intro key
      rw [← Blueprint.mem_positions_iff, ← Blueprint.mem_positions_iff,
        mem_kisBlueprint_positions, mem_kisBlueprint_positions,
        h.vertexCount, h.faceCount, h.faces]
    · simp only [kisBlueprint, h.faces]
      exact List.forall₂_same.mpr fun keys _ => .refl keys
  refine (requireInRange_related h.inRange_iff).bind fun _ _ _ =>
    (halike.build _ _).mono ?_
  rintro out out' ⟨hcount, solid, -, hout, hout'⟩
  have hpolygons : (other.kisBlueprint sides height).polygons =
      (mesh.kisBlueprint sides height).polygons := by
    simp only [kisBlueprint, h.faces]
  rw [hpolygons] at hout'
  exact ⟨hcount, hout'.trans hout.symm⟩

end SameFaces

theorem truncate_turned
    (hclosed : mesh.faces.incidence.Closed)
    (hrange : mesh.InRange)
    (h : mesh.TurnsInto turned)
    (hvertices : mesh.vertexCount ≤ IndexKey.maxIndex)
    (hfaces : mesh.faceCount ≤ IndexKey.maxIndex)
    (sides : ℕ) (height : Float) :
    Except.Related SameFaces (mesh.truncate sides height)
      (turned.truncate sides height) := by
  refine (dual_turned hclosed hrange h hvertices hfaces).bind
    fun around around' hsame => ?_
  refine (hsame.kis sides height).bind fun raised raised' hsame => ?_
  refine hsame.dual.bind fun cut cut' hsame => ?_
  exact ⟨hsame.vertexCount, hsame.faces⟩

end Mesh

/-- The operators all of whose faces are walked. -/
def Operator.WalksAll : Operator → Prop
  | kis .. | reflect | subdivide .. => False
  | _ => True

namespace Mesh

variable {mesh turned : Mesh}

theorem related_turned
    (hclosed : mesh.faces.incidence.Closed)
    (hsimple : ∀ face ∈ mesh.faces, face.Nodup)
    (hrange : mesh.InRange)
    (h : mesh.TurnsInto turned)
    (hvertices : mesh.vertexCount ≤ IndexKey.maxIndex)
    (hfaces : mesh.faceCount ≤ IndexKey.maxIndex)
    {op : Operator}
    (hop : op.WalksAll) :
    Except.Related SameFaces (op.transform mesh) (op.transform turned) := by
  cases op with
  | dual => exact dual_turned hclosed hrange h hvertices hfaces
  | ambo => exact ambo_turned hclosed hsimple hrange h hvertices hfaces
  | gyro => exact gyro_turned hclosed hsimple hrange h
  | propellor => exact propellor_turned hclosed hsimple hrange h
  | whirl => exact whirl_turned hclosed hsimple hrange h
  | chamfer depth =>
      exact chamfer_turned hclosed hrange h hvertices hfaces depth
  | quinto => exact quinto_turned hclosed hsimple hrange h hvertices hfaces
  | perspectiva => exact perspectiva_turned hclosed hsimple hrange h
  | hollow fraction thickness =>
      exact hollow_turned hclosed hsimple hrange h hvertices hfaces fraction
        thickness
  | inset sides fraction offset =>
      exact moveFaces_turned hclosed hsimple hrange h sides fraction offset _
        _
  | extrude sides =>
      exact moveFaces_turned hclosed hsimple hrange h sides 0 extrudeOffset _
        _
  | loft sides fraction =>
      exact moveFaces_turned hclosed hsimple hrange h sides fraction 0 _ _
  | truncate sides height =>
      exact truncate_turned hclosed hrange h hvertices hfaces sides height
  | kis sides height => exact hop.elim
  | reflect => exact hop.elim
  | subdivide factor tolerance maxFactor => exact hop.elim

/-- The corner at which a face starts carries no information: on two closed
meshes that differ in it only, an operator succeeds on both or on neither,
and makes the same faces.  Only the faces that kis keeps start where they
did. -/
theorem transform_turned
    (hclosed : mesh.faces.checkClosed = .ok ())
    (hsimple : ∀ face ∈ mesh.faces, face.Nodup)
    (hrange : mesh.InRange)
    (h : mesh.TurnsInto turned)
    (hvertices : mesh.vertexCount ≤ IndexKey.maxIndex)
    (hfaces : mesh.faceCount ≤ IndexKey.maxIndex) :
    (∀ op : Operator, op.WalksAll →
        Except.Related SameFaces (op.transform mesh) (op.transform turned)) ∧
      ∀ (sides : ℕ) (height : Float), Except.Related
        (fun out out' => out'.vertexCount = out.vertexCount ∧
          ∃ triangles kept kept' : List Face,
            (∀ face ∈ triangles, face.length = 3) ∧
            kept = mesh.faces.filter
              (fun face => !Face.passes sides face.length) ∧
            List.Forall₂ (· ~r ·) kept kept' ∧
            out.faces = triangles ++ kept ∧ out'.faces = triangles ++ kept')
        ((Operator.kis sides height).transform mesh)
        ((Operator.kis sides height).transform turned) := by
  have hincidence := ((Surface.checkClosed_iff_closed hsimple).mp hclosed).1
  refine ⟨fun op =>
      related_turned hincidence hsimple hrange h hvertices hfaces,
    fun sides height =>
      (kis_turned hincidence hrange h hvertices hfaces sides height).mono ?_⟩
  rintro out out' ⟨hcount, triangles, hthree, hout, hout'⟩
  exact ⟨hcount, triangles, _, _, hthree, rfl, h.kept sides, hout, hout'⟩

theorem transform_turned_tetrahedron :
    ∃ turned : Mesh, (Platonic.tetrahedron.named "T").TurnsInto turned ∧
      turned.faces =
        (Platonic.tetrahedron.named "T").faces.map (List.rotate · 1) ∧
      Except.Related SameFaces
        (Operator.gyro.transform (Platonic.tetrahedron.named "T"))
        (Operator.gyro.transform turned) := by
  have hpoly : (Platonic.tetrahedron.named "T").Polyhedral :=
    Surface.polyhedral_tetrahedron
  have hturns : (Platonic.tetrahedron.named "T").TurnsInto
      { Platonic.tetrahedron.named "T" with
        faces :=
          (Platonic.tetrahedron.named "T").faces.map (List.rotate · 1) } :=
    ⟨rfl, List.forall₂_map_right_iff.mpr
      (List.forall₂_same.mpr fun face _ => ⟨1, rfl⟩)⟩
  exact ⟨_, hturns, rfl, (transform_turned hpoly.closed hpoly.simple
    hpoly.inRange hturns (by decide) (by decide)).1 .gyro trivial⟩

/-- The dual of the dual lists the same faces, from their smallest vertices
on. -/
theorem Polyhedral.turnsInto_dual_dual
    (h : mesh.Polyhedral)
    (hvertices : mesh.vertexCount ≤ IndexKey.maxIndex)
    (hfaces : mesh.faceCount ≤ IndexKey.maxIndex) :
    ∃ dual back, mesh.dual = .ok dual ∧ dual.dual = .ok back ∧
      mesh.TurnsInto back := by
  obtain ⟨dual, hdual, hisDual⟩ := h.exists_dual hvertices hfaces
  obtain ⟨back, hback, hisBack⟩ :=
    (hisDual.polyhedral h).exists_dual (hisDual.vertexCount.trans_le hfaces)
      (hisDual.faceCount.trans_le hvertices)
  refine ⟨dual, back, hdual, hback,
    hisBack.vertexCount.trans hisDual.faceCount, ?_⟩
  rw [List.forall₂_iff_get]
  have hcount : back.faceCount = mesh.faceCount :=
    hisBack.faceCount.trans hisDual.vertexCount
  refine ⟨hcount.symm, fun i hi hi' => ?_⟩
  obtain ⟨turned, hturned, hrotated, -⟩ :=
    hisDual.exists_isRotated hisBack h (List.getElem?_eq_getElem hi)
  obtain ⟨_, rfl⟩ := List.getElem?_eq_some_iff.mp hturned
  exact hrotated.symm

/-- Two duals in front of an operator can be cancelled. -/
theorem Polyhedral.transform_dual_dual
    (h : mesh.Polyhedral)
    (hvertices : mesh.vertexCount ≤ IndexKey.maxIndex)
    (hfaces : mesh.faceCount ≤ IndexKey.maxIndex)
    {op : Operator}
    (hop : op.WalksAll) :
    Except.Related SameFaces (op.transform mesh) (mesh.dual >>=
      fun dual => dual.dual >>= fun back => op.transform back) := by
  obtain ⟨dual, back, hdual, hback, hturns⟩ :=
    h.turnsInto_dual_dual hvertices hfaces
  rw [hdual]
  change Except.Related SameFaces _
    (dual.dual >>= fun back => op.transform back)
  rw [hback]
  exact related_turned h.incidence.toClosed h.simple h.inRange hturns
    hvertices hfaces hop

end Mesh
end Polyhedra
