import Mathlib
import Polyhedra.Proofs.Flag.Order
import Polyhedra.Proofs.Operator.Ambo
import Polyhedra.Proofs.Operator.Chamfer
import Polyhedra.Proofs.Operator.Dual
import Polyhedra.Proofs.Operator.Gyro
import Polyhedra.Proofs.Operator.Hollow
import Polyhedra.Proofs.Operator.Inset
import Polyhedra.Proofs.Operator.Perspectiva
import Polyhedra.Proofs.Operator.Propellor
import Polyhedra.Proofs.Operator.Quinto
import Polyhedra.Proofs.Operator.Whirl

/-!
# Faces that start at other corners

An operator declares the flags of one face after those of another.  Listing a
face from another corner on only permutes the flags that are declared for it,
and these never disagree on a closed surface.  So the corner at which a face
starts carries no information.
-/

namespace Polyhedra

namespace Face

theorem predecessors_rotate {α : Type} (keys : List α) (n : ℕ) :
    predecessors (keys.rotate n) = (predecessors keys).rotate n := by
  rw [predecessors_eq_rotate, predecessors_eq_rotate, List.length_rotate,
    List.rotate_rotate, List.rotate_rotate, Nat.add_comm]

theorem arrivals_rotate (face : Face) (n : ℕ) :
    arrivals (face.rotate n) = face.arrivals.rotate n := by
  unfold arrivals
  rw [predecessors_rotate]
  exact (List.zipWith_rotate_distrib _ _ _ _ (by simp)).symm

theorem triples_rotate (face : Face) (n : ℕ) :
    triples (face.rotate n) = face.triples.rotate n := by
  unfold triples
  rw [predecessors_rotate, predecessors_rotate, arrivals_rotate]
  exact (List.zipWith_rotate_distrib _ _ _ _ (by simp)).symm

theorem arrivals_perm {face turned : Face} (h : face ~r turned) :
    face.arrivals.Perm turned.arrivals := by
  obtain ⟨n, rfl⟩ := h
  rw [arrivals_rotate]
  exact (List.rotate_perm _ n).symm

theorem triples_perm {face turned : Face} (h : face ~r turned) :
    face.triples.Perm turned.triples := by
  obtain ⟨n, rfl⟩ := h
  rw [triples_rotate]
  exact (List.rotate_perm _ n).symm

end Face

theorem forall₂_zipIdx {α β : Type} {r : α → β → Prop} {list : List α}
    {list' : List β} (h : List.Forall₂ r list list')
    (n : ℕ) :
    List.Forall₂ (fun p q => r p.1 q.1 ∧ p.2 = q.2) (list.zipIdx n)
      (list'.zipIdx n) := by
  induction h generalizing n with
  | nil => exact .nil
  | cons hfirst _ ih => exact .cons ⟨hfirst, rfl⟩ (ih (n + 1))

namespace Surface

section Turned

variable {surface turned : Surface}
  (h : List.Forall₂ (· ~r ·) surface turned)
include h

theorem turned_symm : List.Forall₂ (· ~r ·) turned surface :=
  h.flip.imp fun _ _ => List.IsRotated.symm

theorem exists_turned {i : ℕ} {face : Face}
    (hface : surface[i]? = some face) :
    ∃ face', turned[i]? = some face' ∧ face ~r face' := by
  obtain ⟨hlt, rfl⟩ := List.getElem?_eq_some_iff.mp hface
  have hlt' : i < turned.length := h.length_eq ▸ hlt
  exact ⟨_, List.getElem?_eq_getElem hlt', h.get hlt hlt'⟩

theorem incidence_turned : turned.incidence = surface.incidence := by
  ext i v w
  constructor
  · rintro ⟨face, hface, hedge⟩
    obtain ⟨face', hface', hrotated⟩ := exists_turned (turned_symm h) hface
    exact ⟨face', hface', (Face.mem_steps_of_isRotated hrotated).mp hedge⟩
  · rintro ⟨face, hface, hedge⟩
    obtain ⟨face', hface', hrotated⟩ := exists_turned h hface
    exact ⟨face', hface', (Face.mem_steps_of_isRotated hrotated).mp hedge⟩

theorem nodup_turned (hsimple : ∀ face ∈ surface, face.Nodup) :
    ∀ face ∈ turned, face.Nodup := by
  intro face hface
  obtain ⟨i, hi⟩ := List.mem_iff_getElem?.mp hface
  obtain ⟨face', hface', hrotated⟩ := exists_turned (turned_symm h) hi
  exact hrotated.nodup_iff.mpr (hsimple face' (List.mem_of_getElem? hface'))

theorem selects_turned {sides i : ℕ} :
    turned.Selects sides i ↔ surface.Selects sides i := by
  constructor
  · rintro ⟨face, hface, hpasses⟩
    obtain ⟨face', hface', hrotated⟩ := exists_turned (turned_symm h) hface
    exact ⟨face', hface', hrotated.perm.length_eq ▸ hpasses⟩
  · rintro ⟨face, hface, hpasses⟩
    obtain ⟨face', hface', hrotated⟩ := exists_turned h hface
    exact ⟨face', hface', hrotated.perm.length_eq ▸ hpasses⟩

/-- What is declared face by face, and for one face in any order. -/
theorem groups_turned {α : Type} {group : Face × ℕ → List α}
    (hperm : ∀ {face face' : Face} (i : ℕ), face ~r face' →
      (group (face, i)).Perm (group (face', i))) :
    List.Forall₂ (fun entry entry' => entry ∈ surface.indexed ∧
      (group entry).Perm (group entry')) surface.indexed turned.indexed := by
  refine ((List.forall₂_and_left _ _).mpr
    ⟨fun entry hentry => hentry, forall₂_zipIdx h 0⟩).imp ?_
  rintro ⟨face, i⟩ ⟨face', _⟩ ⟨hentry, hrotated, rfl⟩
  exact ⟨hentry, hperm i hrotated⟩

theorem flatMap_indexed_perm {α : Type} {group : Face × ℕ → List α}
    (hperm : ∀ {face face' : Face} (i : ℕ), face ~r face' →
      (group (face, i)).Perm (group (face', i))) :
    (surface.indexed.flatMap group).Perm (turned.indexed.flatMap group) := by
  rw [List.flatMap_def, List.flatMap_def]
  apply List.Perm.flatten_congr
  rw [List.forall₂_map_left_iff, List.forall₂_map_right_iff]
  exact (groups_turned h hperm).imp fun _ _ => And.right

/-- Flags that disagree at most when they are declared for different
faces. -/
theorem foldl_setFlag_turned {F K : Type} [Ord F] [Ord K] [Std.TransOrd F]
    [Std.TransOrd K] [Std.LawfulEqOrd F] [Std.LawfulEqOrd K] [DecidableEq F]
    [DecidableEq K] {group : Face × ℕ → List (Flag F K)}
    (hperm : ∀ {face face' : Face} (i : ℕ), face ~r face' →
      (group (face, i)).Perm (group (face', i)))
    (hgroup : ∀ entry ∈ surface.indexed, Flag.Determinate (group entry)) :
    (surface.indexed.flatMap group).foldl FlagSystem.setFlag ∅ =
      (turned.indexed.flatMap group).foldl FlagSystem.setFlag ∅ := by
  rw [List.flatMap_def, List.flatMap_def]
  apply FlagSystem.foldl_setFlag_groups
  rw [List.forall₂_map_left_iff, List.forall₂_map_right_iff]
  exact (groups_turned h hperm).imp fun entry _ ⟨hentry, hperm⟩ =>
    ⟨hperm, hgroup entry hentry⟩

/-- On a closed surface the dual declares the same flags in another order. -/
theorem exists_dualFlags_turned (hclosed : surface.incidence.Closed) :
    ∃ flags flags', surface.dualFlags = .ok flags ∧
      turned.dualFlags = .ok flags' ∧ flags.Perm flags' := by
  have howners : turned.lastOwners = surface.lastOwners := by
    refine Std.ExtTreeMap.ext_getElem? fun edge => Option.ext fun i => ?_
    rw [getElem?_lastOwners hclosed,
      getElem?_lastOwners (by rw [incidence_turned h]; exact hclosed),
      incidence_turned h]
  have hedges : surface.ownedEdges.Perm turned.ownedEdges :=
    flatMap_indexed_perm h fun i hrotated =>
      (Face.arrivals_perm hrotated).map fun edge => (edge, i)
  obtain ⟨flags, hflags, -⟩ := exists_dualFlags hclosed
  obtain ⟨flags', hflags', hperm⟩ :=
    List.perm_comp_forall₂ hedges.symm (Except.mapM_eq_ok_iff.mp hflags)
  refine ⟨flags, flags', hflags, ?_, hperm.symm⟩
  unfold dualFlags
  rw [howners]
  exact Except.mapM_eq_ok_iff.mpr hflags'

end Turned

end Surface

/-! ## Flags that never disagree -/

namespace Flag.Determinate

variable {F K G L : Type} {flags : List (Flag F K)} {onFace : F → G}
  {onKey : K → L}

theorem mono
    (h : Determinate flags)
    {part : List (Flag F K)}
    (hsub : part ⊆ flags) : Determinate part :=
  fun a ha b hb => h a (hsub ha) b (hsub hb)

theorem map
    (h : Determinate flags)
    (hface : Function.Injective onFace)
    (hkey : Function.Injective onKey) :
    Determinate (flags.map (Flag.map onFace onKey)) := by
  intro a ha b hb hfaces htails
  obtain ⟨flag, hflag, rfl⟩ := List.mem_map.mp ha
  obtain ⟨other, hother, rfl⟩ := List.mem_map.mp hb
  exact congrArg onKey
    (h flag hflag other hother (hface hfaces) (hkey htails))

theorem of_incidence {R : Incidence F K}
    (hhead : ∀ {f : F} {v w w' : K}, R f v w → R f v w' → w = w')
    (hflags : ∀ f v w, ⟨f, v, w⟩ ∈ flags ↔ R f v w) : Determinate flags := by
  rintro ⟨f, v, w⟩ h ⟨f', v', w'⟩ h' rfl rfl
  exact hhead ((hflags _ _ _).mp h) ((hflags _ _ _).mp h')

theorem of_rename {R : Incidence G L} {onFace : G → F} {onKey : L → K}
    (hhead : ∀ {f : G} {v w w' : L}, R f v w → R f v w' → w = w')
    (hface : Set.InjOn onFace R.faces)
    (hkey : Set.InjOn onKey R.tails)
    (hflags : ∀ f v w, ⟨f, v, w⟩ ∈ flags ↔ R.rename onFace onKey f v w) :
    Determinate flags := by
  apply of_incidence _ hflags
  rintro _ _ _ _ ⟨f, v, w, h, rfl, rfl, rfl⟩ ⟨f', v', w', h', hf, hv, rfl⟩
  obtain rfl := hface (Incidence.mem_faces h') (Incidence.mem_faces h) hf
  obtain rfl := hkey (Incidence.mem_tails h') (Incidence.mem_tails h) hv
  rw [hhead h h']

end Flag.Determinate

/-! ## One operator on two meshes -/

namespace Mesh

/-- The same faces in the same order, each listed from any of its corners
on. -/
structure TurnsInto (mesh turned : Mesh) : Prop where
  vertexCount : turned.vertexCount = mesh.vertexCount
  faces : List.Forall₂ (· ~r ·) mesh.faces turned.faces

/-- Literally the same faces between as many vertices. -/
structure SameFaces (mesh other : Mesh) : Prop where
  vertexCount : other.vertexCount = mesh.vertexCount
  faces : other.faces = mesh.faces

variable {mesh turned : Mesh}

theorem requireInRange_related (h : turned.InRange ↔ mesh.InRange) :
    Except.Related (fun _ _ => True) mesh.requireInRange
      turned.requireInRange := by
  unfold requireInRange
  by_cases hrange : mesh.InRange
  · rw [if_pos hrange, if_pos (h.mpr hrange)]
    trivial
  · rw [if_neg hrange, if_neg (mt h.mp hrange)]
    trivial

namespace TurnsInto

variable (h : mesh.TurnsInto turned)
include h

theorem incidence : turned.faces.incidence = mesh.faces.incidence :=
  Surface.incidence_turned h.faces

theorem faceCount : turned.faceCount = mesh.faceCount :=
  h.faces.length_eq.symm

theorem nodup (hsimple : ∀ face ∈ mesh.faces, face.Nodup) :
    ∀ face ∈ turned.faces, face.Nodup :=
  Surface.nodup_turned h.faces hsimple

theorem selects {sides i : ℕ} :
    turned.faces.Selects sides i ↔ mesh.faces.Selects sides i :=
  Surface.selects_turned h.faces

theorem inRange (hrange : mesh.InRange) : turned.InRange := by
  intro face hface v hv
  have htail : v ∈ mesh.faces.incidence.tails := by
    rw [← h.incidence, Surface.mem_tails_iff]
    exact ⟨face, hface, hv⟩
  obtain ⟨face', hface', hv'⟩ := Surface.mem_tails_iff.mp htail
  exact (hrange face' hface' v hv').trans_eq h.vertexCount.symm

/-- The faces that do not pass a filter on the number of sides. -/
theorem kept (sides : ℕ) : List.Forall₂ (· ~r ·)
    (mesh.faces.filter fun face => !Face.passes sides face.length)
    (turned.faces.filter fun face => !Face.passes sides face.length) := by
  refine List.rel_filter (fun face face' hrotated => ?_) h.faces
  simp only [hrotated.perm.length_eq]

/-- Both meshes pass the range check. -/
theorem ranged
    (hrange : mesh.InRange)
    {r : Mesh → Mesh → Prop} {x y : Except MeshError Mesh}
    (hxy : Except.Related r x y) :
    Except.Related r (mesh.requireInRange >>= fun _ => x)
      (turned.requireInRange >>= fun _ => y) := by
  rwa [requireInRange_bind hrange, requireInRange_bind (h.inRange hrange)]

/-- A construction that declares its flags face by face. -/
theorem built {F K : Type} [Ord F] [Ord K] [Std.TransOrd F] [Std.TransOrd K]
    [Std.LawfulEqOrd F] [Std.LawfulEqOrd K] [DecidableEq F] [DecidableEq K]
    [ToString F] [ToString K] {group : Face × ℕ → List (Flag F K)}
    {sites sites' : List (K × Point)}
    (hperm : ∀ {face face' : Face} (i : ℕ), face ~r face' →
      (group (face, i)).Perm (group (face', i)))
    (hgroup : ∀ entry ∈ mesh.faces.indexed, Flag.Determinate (group entry))
    (hsites : ∀ key, key ∈ sites'.map Prod.fst ↔ key ∈ sites.map Prod.fst)
    (name name' : String) :
    Except.Related SameFaces (Blueprint.build
        { sites, flags := mesh.faces.indexed.flatMap group } name)
      (Blueprint.build
        { sites := sites', flags := turned.faces.indexed.flatMap group }
        name') := by
  have halike :
      Blueprint.Alike { sites, flags := mesh.faces.indexed.flatMap group }
        { sites := sites', flags := turned.faces.indexed.flatMap group } :=
    .of_flags (Surface.foldl_setFlag_turned h.faces hperm hgroup) hsites .nil
  refine (halike.build name name').mono ?_
  rintro out out' ⟨hcount, solid, -, hfaces, hfaces'⟩
  exact ⟨hcount, hfaces'.trans hfaces.symm⟩

/-- A construction on roles that declares its flags face by face. -/
theorem labelled {R : Incidence FaceRole VertexRole}
    (hR : R.Closed)
    {group : Face × ℕ → List (Flag FaceRole VertexRole)}
    {sites sites' : List (VertexRole × Point)}
    (hflags :
      ∀ f v w, ⟨f, v, w⟩ ∈ mesh.faces.indexed.flatMap group ↔ R f v w)
    (hperm : ∀ {face face' : Face} (i : ℕ), face ~r face' →
      (group (face, i)).Perm (group (face', i)))
    (hsites : ∀ role, role ∈ sites'.map Prod.fst ↔ role ∈ sites.map Prod.fst)
    (name name' : String) :
    Except.Related SameFaces (Blueprint.buildLabelled
        { sites, flags := mesh.faces.indexed.flatMap group } name)
      (Blueprint.buildLabelled
        { sites := sites', flags := turned.faces.indexed.flatMap group }
        name') := by
  have hdeterminate : Flag.Determinate (mesh.faces.indexed.flatMap group) :=
    .of_incidence @hR.head_unique hflags
  have hlabels :
      ∀ (sites : List (VertexRole × Point)) (label : String), label ∈
        (sites.map fun (key, position) => (key.label, position)).map
          Prod.fst ↔ ∃ role ∈ sites.map Prod.fst, role.label = label := by
    intro sites label
    simp [List.mem_map]
  simp only [Blueprint.buildLabelled, Blueprint.relabel, List.map_flatMap,
    List.map_nil]
  apply h.built (fun i hrotated => (hperm i hrotated).map _)
  · intro entry hentry
    exact (hdeterminate.mono fun flag hflag =>
      List.mem_flatMap.mpr ⟨entry, hentry, hflag⟩).map
        FaceRole.label_injective VertexRole.label_injective
  · intro label
    rw [hlabels, hlabels]
    simp only [hsites]

end TurnsInto

section Operators

variable (hclosed : mesh.faces.incidence.Closed)
  (hsimple : ∀ face ∈ mesh.faces, face.Nodup)
  (hrange : mesh.InRange)
  (h : mesh.TurnsInto turned)
include hclosed hsimple hrange h

theorem gyro_turned : Except.Related SameFaces mesh.gyro turned.gyro := by
  refine h.ranged hrange (h.labelled (Incidence.gyro_closed hclosed)
    (fun _ _ _ => Surface.mem_gyroFlags_iff hsimple) (fun i hrotated =>
      (Face.triples_perm hrotated).flatMap_right _) (fun role => ?_) _ _)
  simp only [List.map_append, List.mem_append, mem_unitCornerSites_iff,
    mem_centerSites_iff, mem_thirdSites_iff hsimple,
    mem_thirdSites_iff (h.nodup hsimple), h.vertexCount, h.faceCount,
    h.incidence]

theorem propellor_turned :
    Except.Related SameFaces mesh.propellor turned.propellor := by
  refine h.ranged hrange (h.labelled (Incidence.propellor_closed hclosed)
    (fun _ _ _ => Surface.mem_propellorFlags_iff hsimple) (fun i hrotated =>
      (Face.triples_perm hrotated).flatMap_right _) (fun role => ?_) _ _)
  simp only [List.map_append, List.mem_append, mem_unitCornerSites_iff,
    mem_thirdSites_iff hsimple, mem_thirdSites_iff (h.nodup hsimple),
    h.vertexCount, h.incidence]

theorem whirl_turned : Except.Related SameFaces mesh.whirl turned.whirl := by
  refine h.ranged hrange (h.labelled (Incidence.whirl_closed hclosed)
    (fun _ _ _ => Surface.mem_whirlFlags_iff hsimple) (fun i hrotated =>
      (Face.triples_perm hrotated).flatMap_right _) (fun role => ?_) _ _)
  simp only [List.map_append, List.mem_append, mem_unitCornerSites_iff,
    mem_thirdSites_iff hsimple, mem_thirdSites_iff (h.nodup hsimple),
    mem_innerSites_iff hsimple, mem_innerSites_iff (h.nodup hsimple),
    h.vertexCount, h.incidence]

theorem perspectiva_turned :
    Except.Related SameFaces mesh.perspectiva turned.perspectiva := by
  refine h.ranged hrange (h.labelled (Incidence.perspectiva_closed hclosed)
    (fun _ _ _ => Surface.mem_perspectivaFlags_iff hsimple)
    (fun i hrotated => (Face.triples_perm hrotated).flatMap_right _)
    (fun role => ?_) _ _)
  simp only [List.map_append, List.mem_append, mem_cornerSites_iff,
    mem_stellatedSites_iff hsimple, mem_stellatedSites_iff (h.nodup hsimple),
    h.vertexCount, h.incidence]

theorem moveFaces_turned (sides : ℕ) (fraction offset : Float)
    (name name' : String) :
    Except.Related SameFaces (mesh.moveFaces sides fraction offset name)
      (turned.moveFaces sides fraction offset name') := by
  refine h.ranged hrange (h.labelled (Incidence.inset_closed hclosed)
    (fun _ _ _ => Surface.mem_insetFlags_iff hsimple) (fun i hrotated => ?_)
    (fun role => ?_) _ _)
  · simp only [hrotated.perm.length_eq]
    split
    · exact (Face.arrivals_perm hrotated).flatMap_right _
    · exact (Face.arrivals_perm hrotated).map _
  · simp only [List.map_append, List.mem_append, mem_cornerSites_iff,
      mem_insetSites_iff, h.vertexCount, h.incidence, h.selects]

section Keys

variable (hvertices : mesh.vertexCount ≤ IndexKey.maxIndex)
  (hfaces : mesh.faceCount ≤ IndexKey.maxIndex)
include hvertices hfaces

omit hsimple in
theorem chamfer_turned (depth : Float) :
    Except.Related SameFaces (mesh.chamfer depth)
      (turned.chamfer depth) := by
  have hflags : Flag.Determinate mesh.faces.chamferFlags :=
    .of_rename @(Incidence.chamfer_closed hclosed).head_unique
      (injOn_key_chamfer_faces (hrange.indicesFit hvertices hfaces))
      (injOn_key_chamfer_tails (hrange.indicesFit hvertices hfaces) hclosed)
      fun _ _ _ => Surface.mem_chamferFlags_iff
  refine h.ranged hrange (h.built
    (fun i hrotated => (Face.arrivals_perm hrotated).flatMap_right _)
    (fun entry hentry => hflags.mono ?_) (fun key => ?_) _ _)
  · exact fun flag hflag => List.mem_flatMap.mpr ⟨entry, hentry, hflag⟩
  · rw [mem_chamferSites_iff hclosed,
      mem_chamferSites_iff (h.incidence.symm ▸ hclosed), h.incidence]

theorem quinto_turned :
    Except.Related SameFaces mesh.quinto turned.quinto := by
  have hflags : Flag.Determinate mesh.faces.quintoFlags :=
    .of_rename @(Incidence.quinto_closed hclosed).head_unique
      (injOn_key_quinto_faces (hrange.indicesFit hvertices hfaces) hclosed)
      (injOn_key_quinto_tails (hrange.indicesFit hvertices hfaces))
      fun _ _ _ => Surface.mem_quintoFlags_iff hsimple
  refine h.ranged hrange
    (h.built (fun i hrotated => (Face.triples_perm hrotated).flatMap_right _)
      (fun entry hentry => hflags.mono ?_) (fun key => ?_) _ _)
  · exact fun flag hflag => List.mem_flatMap.mpr ⟨entry, hentry, hflag⟩
  · rw [mem_quintoSites_iff hsimple hclosed,
      mem_quintoSites_iff (h.nodup hsimple) (h.incidence.symm ▸ hclosed),
      h.incidence]

omit h in
/-- Within one face the flags of ambo do not disagree.  The keys of the faces
around vertices may run over the end of a slot and then be the same, but such
faces are still told apart from the face inside, and no edge is followed
twice in one face. -/
theorem amboFlags_determinate {entry : Face × ℕ}
    (hentry : entry ∈ mesh.faces.indexed) :
    Flag.Determinate (entry.1.triples.flatMap fun (a, b, c) =>
      [ (⟨.single entry.2, .edge a b, .edge b c⟩ : Flag IndexKey IndexKey),
        ⟨.single (mesh.faces.length + b), .edge b c, .edge a b⟩ ]) := by
  obtain ⟨face, i⟩ := entry
  have hface : mesh.faces[i]? = some face :=
    Surface.mem_indexed_iff.mp hentry
  have hi : i < mesh.faceCount := (List.getElem?_eq_some_iff.mp hface).1
  have hmem : ∀ {a b c}, (a, b, c) ∈ face.triples →
      mesh.faces.incidence i a b ∧ mesh.faces.incidence i b c :=
    fun htriple =>
    (Surface.exists_triple_iff hsimple).mp ⟨face, hface, htriple⟩
  have hfits : ∀ {a b}, mesh.faces.incidence i a b →
      a ≤ IndexKey.maxIndex ∧ b ≤ IndexKey.maxIndex := fun hab =>
    ⟨hrange.vertex_fits hvertices (Incidence.mem_tails hab),
      hrange.vertex_fits hvertices (hclosed.head_mem_tails hab)⟩
  -- an edge of the face is given by its key
  have hedge :
      ∀ {a b c d}, mesh.faces.incidence i a b → mesh.faces.incidence i c d →
        IndexKey.edge a b = .edge c d → a = c ∧ b = d := by
    intro a b c d hab hcd heq
    have hsame :=
      IndexKey.edge_inj (hfits hab).1 (hfits hab).2 (hfits hcd).1
        (hfits hcd).2 heq
    rcases Sym2.eq_iff.mp hsame with hsame | ⟨rfl, rfl⟩
    · exact hsame
    · exact absurd rfl (hclosed.mate_ne hab hcd)
  have hapart :
      ∀ {b}, IndexKey.single i ≠ .single (mesh.faces.length + b) := by
    intro b heq
    have hslot := congrArg IndexKey.first heq
    simp only [IndexKey.single, IndexKey.slot] at hslot
    change i < mesh.faces.length at hi
    change mesh.faces.length ≤ _ at hfaces
    omega
  intro flag hflag other hother hfaceKey htailKey
  obtain ⟨⟨a, b, c⟩, habc, hflag⟩ := List.mem_flatMap.mp hflag
  obtain ⟨⟨a', b', c'⟩, habc', hother⟩ := List.mem_flatMap.mp hother
  obtain ⟨hab, hbc⟩ := hmem habc
  obtain ⟨hab', hbc'⟩ := hmem habc'
  simp only [List.mem_cons, List.not_mem_nil, or_false] at hflag hother
  rcases hflag with rfl | rfl <;> rcases hother with rfl | rfl
  · obtain ⟨rfl, rfl⟩ := hedge hab hab' htailKey
    rw [hclosed.head_unique hbc hbc']
  · exact absurd hfaceKey hapart
  · exact absurd hfaceKey.symm hapart
  · obtain ⟨rfl, rfl⟩ := hedge hbc hbc' htailKey
    rw [hclosed.tail_unique hab hab']

theorem ambo_turned : Except.Related SameFaces mesh.ambo turned.ambo := by
  have hflags :
    turned.faces.amboFlags = turned.faces.indexed.flatMap fun entry =>
      entry.1.triples.flatMap fun corner =>
        [ ⟨.single entry.2, .edge corner.1 corner.2.1,
              .edge corner.2.1 corner.2.2⟩,
            ⟨.single (mesh.faces.length + corner.2.1),
              .edge corner.2.1 corner.2.2, .edge corner.1 corner.2.1⟩ ] := by
    rw [h.faces.length_eq]
    rfl
  unfold ambo
  rw [hflags]
  refine h.ranged hrange (h.built (fun i hrotated =>
      (Face.triples_perm hrotated).flatMap_right _) (fun entry hentry =>
      amboFlags_determinate hclosed hsimple hrange hvertices hfaces hentry)
    (fun key => ?_) _ _)
  rw [mem_amboSites_iff hsimple, mem_amboSites_iff (h.nodup hsimple),
    h.incidence]

omit hsimple in
theorem dual_turned : Except.Related SameFaces mesh.dual turned.dual := by
  obtain ⟨flags, flags', hflags, hflags', hperm⟩ :=
    Surface.exists_dualFlags_turned h.faces hclosed
  have hdeterminate : Flag.Determinate flags := by
    obtain ⟨known, hknown, hmem⟩ := Surface.exists_dualFlags hclosed
    rw [Except.ok.inj (hknown.symm.trans hflags)] at hmem
    apply Flag.Determinate.of_rename @hclosed.around_head_unique _ _ hmem
    · rw [hclosed.faces_around]
      exact fun v hv w hw => IndexKey.single_inj
        (hrange.vertex_fits hvertices hv) (hrange.vertex_fits hvertices hw)
    · rw [hclosed.tails_around]
      exact fun i hi j hj =>
        IndexKey.single_inj (face_fits hfaces hi) (face_fits hfaces hj)
  have halike : Blueprint.Alike { sites := mesh.dualSites, flags }
      { sites := turned.dualSites, flags := flags' } := by
    refine .of_flags (FlagSystem.foldl_setFlag_perm hperm hdeterminate ∅)
      (fun key => ?_) .nil
    rw [mem_dualSites_iff, mem_dualSites_iff, h.faceCount]
  unfold dual
  rw [hflags, hflags']
  refine h.ranged hrange ((halike.build _ _).mono ?_)
  rintro out out' ⟨hcount, solid, -, hout, hout'⟩
  exact ⟨hcount, hout'.trans hout.symm⟩

theorem hollow_turned (fraction thickness : Float) :
    Except.Related SameFaces (mesh.hollow fraction thickness)
      (turned.hollow fraction thickness) := by
  refine h.ranged hrange
    ((dual_turned hclosed hrange h hvertices hfaces).bind ?_)
  intro dual dual' _
  refine h.labelled (Incidence.hollow_closed hclosed)
    (fun _ _ _ => Surface.mem_hollowFlags_iff hsimple) (fun i hrotated =>
      (Face.arrivals_perm hrotated).flatMap_right _) (fun role => ?_) _ _
  simp only [List.map_append, List.mem_append, mem_windowSites_iff,
    h.incidence, h.vertexCount,
    mem_shellSites_iff thickness (length_shellDirections mesh dual),
    mem_shellSites_iff thickness (length_shellDirections turned dual')]

end Keys

end Operators

end Mesh
end Polyhedra
