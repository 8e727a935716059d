import Mathlib
import Polyhedra.Flag.Basic
import Polyhedra.Proofs.Flag.Construction

/-!
# Flags declared face by face

Operators go around every face and declare flags for every corner or for
every edge.  What they declare depends on the incidence of the surface only,
not on the corner that a face starts at.
-/

namespace Polyhedra

namespace Flag

variable {F K : Type} {face f : F} {keys : List K} {v w : K}

theorem mem_around_iff :
    ⟨f, v, w⟩ ∈ around face keys ↔ face = f ∧ (v, w) ∈ Face.steps keys := by
  simp only [around, List.mem_map, Prod.exists, Flag.mk.injEq, Face.steps]
  constructor
  · rintro ⟨a, b, hstep, rfl, rfl, rfl⟩
    exact ⟨rfl, hstep⟩
  · rintro ⟨rfl, hstep⟩
    exact ⟨v, w, hstep, rfl, rfl, rfl⟩

theorem mem_along_iff :
    ⟨f, v, w⟩ ∈ along face keys ↔
      face = f ∧ (v, w) ∈ keys.zip (keys.drop 1) := by
  simp only [along, List.mem_map, Prod.exists, Flag.mk.injEq]
  constructor
  · rintro ⟨a, b, hstep, rfl, rfl, rfl⟩
    exact ⟨rfl, hstep⟩
  · rintro ⟨rfl, hstep⟩
    exact ⟨v, w, hstep, rfl, rfl, rfl⟩

end Flag

namespace Surface

variable {surface : Surface} {α : Type}

theorem exists_triple_iff
    (hsimple : ∀ face ∈ surface, face.Nodup)
    {i a b c : ℕ} :
    (∃ face, surface[i]? = some face ∧ (a, b, c) ∈ face.triples) ↔
      surface.incidence i a b ∧ surface.incidence i b c := by
  constructor
  · rintro ⟨face, hface, htriple⟩
    obtain ⟨hab, hbc⟩ :=
      (Face.mem_triples_iff (hsimple face (List.mem_of_getElem? hface))).mp
        htriple
    exact ⟨⟨face, hface, hab⟩, face, hface, hbc⟩
  · rintro ⟨⟨face, hface, hab⟩, face', hface', hbc⟩
    obtain rfl := Option.some.inj (hface.symm.trans hface')
    exact ⟨face, hface,
      (Face.mem_triples_iff (hsimple face (List.mem_of_getElem? hface))).mpr
        ⟨hab, hbc⟩⟩

/-- What is said about the first edges of the triples is said about all
edges. -/
theorem exists_edge_iff
    (hsimple : ∀ face ∈ surface, face.Nodup)
    {P : ℕ → Face → ℕ → ℕ → Prop} :
    (∃ face i, surface[i]? = some face ∧
        ∃ a b c, (a, b, c) ∈ face.triples ∧ P i face a b) ↔
      ∃ (i : ℕ) (face : Face) (a b : ℕ), surface[i]? = some face ∧
        (a, b) ∈ face.edges ∧ P i face a b := by
  constructor
  · rintro ⟨face, i, hface, a, b, c, htriple, hP⟩
    have hmem := List.mem_of_getElem? hface
    exact ⟨i, face, a, b, hface,
      ((Face.mem_triples_iff (hsimple face hmem)).mp htriple).1, hP⟩
  · rintro ⟨i, face, a, b, hface, hab, hP⟩
    have hmem := List.mem_of_getElem? hface
    obtain ⟨c, hbc⟩ := Face.exists_step_from (Face.mem_of_step hab).2
    exact ⟨face, i, hface, a, b, c,
      (Face.mem_triples_iff (hsimple face hmem)).mpr ⟨hab, hbc⟩, hP⟩

theorem mem_tails_of_mem_side {e : Sym2 ℕ}
    (he : e ∈ surface.incidence.sides)
    {v : ℕ}
    (hv : v ∈ e) :
    v ∈ surface.incidence.tails := by
  obtain ⟨i, a, b, hab, rfl⟩ := he
  rcases Sym2.mem_iff.mp hv with rfl | rfl
  · exact Incidence.mem_tails hab
  · obtain ⟨c, hbc⟩ := incidence_next hab
    exact Incidence.mem_tails hbc

theorem exists_arrival_iff {i a b : ℕ} :
    (∃ face, surface[i]? = some face ∧ (a, b) ∈ face.arrivals) ↔
      surface.incidence i a b := by
  simp only [Face.mem_arrivals_iff, incidence]

/-- Whether the face `i` passes the filter on the number of sides. -/
def Selects (surface : Surface) (sides i : ℕ) : Prop :=
  ∃ face, surface[i]? = some face ∧ Face.passes sides face.length = true

theorem selects_iff {sides i : ℕ} {face : Face}
    (hface : surface[i]? = some face) :
    surface.Selects sides i ↔ Face.passes sides face.length = true := by
  unfold Selects
  constructor
  · rintro ⟨face', hface', hpasses⟩
    rw [Option.some.inj (hface.symm.trans hface')]
    exact hpasses
  · exact fun hpasses => ⟨face, hface, hpasses⟩

end Surface

open Classical in
/-- The face on the edge from `a` of the face `i`: a wall of its own when the
face is selected, and otherwise the face itself. -/
noncomputable def FaceRole.wall (selected : ℕ → Prop) (i a : ℕ) : FaceRole :=
  if selected i then .ring i a else .kept i

theorem FaceRole.wall_of_selected {selected : ℕ → Prop} {i : ℕ}
    (hi : selected i)
    (a : ℕ) :
    wall selected i a = .ring i a :=
  if_pos hi

theorem FaceRole.wall_of_not_selected {selected : ℕ → Prop} {i : ℕ}
    (hi : ¬ selected i)
    (a : ℕ) :
    wall selected i a = .kept i :=
  if_neg hi

theorem FaceRole.wall_face_inj {selected : ℕ → Prop} {i j a b : ℕ}
    (h : wall selected i a = wall selected j b) : i = j := by
  unfold wall at h
  grind

/-- Around an input vertex a selected face has a wall on its edge to the
vertex besides the one on its edge from it. -/
theorem Incidence.Polyhedral.fan_of_selected {M : Incidence ℕ ℕ}
    (hM : M.Polyhedral)
    {selected : ℕ → Prop}
    {S : Incidence FaceRole VertexRole} {b : ℕ}
    (hwall : ∀ {i a c}, M i a c →
      S (.wall selected i a) (.corner a) (.corner c))
    (hjoin : ∀ {i a c}, selected i → M i a b → M i b c →
      Relation.EqvGen (S.Around (.corner b)) (.ring i a) (.ring i b))
    (hcorner : ∀ {f w}, S f (.corner b) w →
      (∃ i c, M i b c ∧ .wall selected i b = f) ∨
        ∃ i a, selected i ∧ M i a b ∧ .ring i a = f)
    {f g : FaceRole} {w w' : VertexRole}
    (hf : S f (.corner b) w)
    (hg : S g (.corner b) w') :
    Relation.EqvGen (S.Around (.corner b)) f g := by
  apply hM.fan_of_walls b (.wall selected) _ _ _ hf hg
  · intro i a c hab hbc
    by_cases hi : selected i
    · rw [FaceRole.wall_of_selected hi, FaceRole.wall_of_selected hi]
      exact hjoin hi hab hbc
    · rw [FaceRole.wall_of_not_selected hi, FaceRole.wall_of_not_selected hi]
      exact .refl _
  · intro i j c hi hj
    exact .rel _ _ ⟨_, hwall hj, hwall hi⟩
  · intro f w h
    rcases hcorner h with ⟨i, c, hbc, rfl⟩ | ⟨i, a, hi, hab, rfl⟩
    · exact ⟨i, c, hbc, .inl rfl⟩
    · obtain ⟨c, hbc⟩ := hM.next hab
      exact ⟨i, c, hbc, .inr ⟨a, hab, FaceRole.wall_of_selected hi a⟩⟩

namespace Mesh

/-- A mesh in range passes the range check of an operator. -/
theorem requireInRange_bind {mesh : Mesh} {α : Type}
    (h : mesh.InRange)
    (next : Unit → Except MeshError α) :
    (mesh.requireInRange >>= next) = next () := by
  rw [requireInRange_eq_ok_iff.mpr h]
  rfl

/-- A construction on roles that keeps a mesh polyhedral and its Euler
characteristic. -/
theorem Polyhedral.labelled {mesh : Mesh}
    (h : mesh.Polyhedral)
    {R : Incidence FaceRole VertexRole} {sites : List (VertexRole × Point)}
    {flags : List (Flag FaceRole VertexRole)}
    (hR : R.Polyhedral)
    (heuler : R.doubleEuler = mesh.faces.incidence.doubleEuler)
    (hflags : ∀ f v w, ⟨f, v, w⟩ ∈ flags ↔ R f v w)
    (hsites : ∀ v, v ∈ sites.map Prod.fst ↔ v ∈ R.tails)
    (name : String) :
    ∃ out, (mesh.requireInRange >>=
        fun _ => Blueprint.buildLabelled { sites, flags } name) = .ok out ∧
      out.Polyhedral ∧
      out.eulerCharacteristic = mesh.eulerCharacteristic := by
  obtain ⟨out, hout, hpoly, hdouble⟩ :=
    Blueprint.exists_polyhedral_buildLabelled hR hflags hsites name
  refine ⟨out, ?_, hpoly, ?_⟩
  · rw [requireInRange_bind h.inRange]
    exact hout
  · rw [heuler, ← h.two_mul_eulerCharacteristic] at hdouble
    omega

/-- All indices of vertices and faces fit the slots of a key. -/
def Fits (mesh : Mesh) : Prop :=
  mesh.vertexCount + mesh.faceCount ≤ IndexKey.maxIndex

section Fits

variable {mesh : Mesh}

theorem face_fits
    (hfaces : mesh.faceCount ≤ IndexKey.maxIndex)
    {i : ℕ}
    (hi : i ∈ mesh.faces.incidence.faces) : i ≤ IndexKey.maxIndex := by
  obtain ⟨v, w, face, hface, -⟩ := hi
  have hlt : i < mesh.faceCount := (List.getElem?_eq_some_iff.mp hface).1
  exact hlt.le.trans hfaces

theorem InRange.vertex_fits
    (hrange : mesh.InRange)
    (hvertices : mesh.vertexCount ≤ IndexKey.maxIndex)
    {v : ℕ}
    (hv : v ∈ mesh.faces.incidence.tails) : v ≤ IndexKey.maxIndex := by
  obtain ⟨face, hface, hmem⟩ := Surface.mem_tails_iff.mp hv
  exact (hrange face hface v hmem).le.trans hvertices

theorem InRange.side_fits
    (hrange : mesh.InRange)
    (hvertices : mesh.vertexCount ≤ IndexKey.maxIndex)
    {e : Sym2 ℕ}
    (he : e ∈ mesh.faces.incidence.sides) : ∀ v ∈ e, v ≤ IndexKey.maxIndex :=
  fun _ hv =>
    hrange.vertex_fits hvertices (Surface.mem_tails_of_mem_side he hv)

theorem Fits.vertexCount_le (h : mesh.Fits) :
    mesh.vertexCount ≤ IndexKey.maxIndex :=
  (Nat.le_add_right _ _).trans h

theorem Fits.faceCount_le (h : mesh.Fits) :
    mesh.faceCount ≤ IndexKey.maxIndex :=
  (Nat.le_add_left _ _).trans h

/-- The index of every face and of every vertex on a face fits a slot of a
key.  This asks less than `Mesh.Fits`, where the counts have to fit
together. -/
structure IndicesFit (mesh : Mesh) : Prop where
  face_le : ∀ i < mesh.faceCount, i ≤ IndexKey.maxIndex
  vertex_le : ∀ face ∈ mesh.faces, ∀ v ∈ face, v ≤ IndexKey.maxIndex

theorem InRange.indicesFit
    (hrange : mesh.InRange)
    (hvertices : mesh.vertexCount ≤ IndexKey.maxIndex)
    (hfaces : mesh.faceCount ≤ IndexKey.maxIndex) : mesh.IndicesFit where
  face_le _ hi := hi.le.trans hfaces
  vertex_le face hface v hv := (hrange face hface v hv).le.trans hvertices

namespace IndicesFit

variable (h : mesh.IndicesFit)
include h

theorem face {i : ℕ} (hi : i ∈ mesh.faces.incidence.faces) :
    i ≤ IndexKey.maxIndex := by
  obtain ⟨v, w, face, hface, -⟩ := hi
  exact h.face_le i (List.getElem?_eq_some_iff.mp hface).1

theorem tail {v : ℕ} (hv : v ∈ mesh.faces.incidence.tails) :
    v ≤ IndexKey.maxIndex := by
  obtain ⟨face, hface, hmem⟩ := Surface.mem_tails_iff.mp hv
  exact h.vertex_le face hface v hmem

theorem side {e : Sym2 ℕ} (he : e ∈ mesh.faces.incidence.sides) :
    ∀ v ∈ e, v ≤ IndexKey.maxIndex :=
  fun _ hv => h.tail (Surface.mem_tails_of_mem_side he hv)

end IndicesFit

end Fits

theorem mem_keyed_sites_iff {sites : List (IndexRole × Point)}
    {key : IndexKey} :
    key ∈ (sites.map fun (role, p) => (role.key, p)).map Prod.fst ↔
      key ∈ IndexRole.key '' {role | role ∈ sites.map Prod.fst} := by
  simp only [List.mem_map, Set.mem_image, Set.mem_ofPred_eq]
  constructor
  · rintro ⟨_, ⟨site, hsite, rfl⟩, rfl⟩
    exact ⟨site.1, ⟨site, hsite, rfl⟩, rfl⟩
  · rintro ⟨_, ⟨site, hsite, rfl⟩, rfl⟩
    exact ⟨_, ⟨site, hsite, rfl⟩, rfl⟩

/-- A construction on roles under keys made of indices. -/
theorem Polyhedral.keyed {mesh : Mesh}
    (h : mesh.Polyhedral)
    {G L : Type} {R : Incidence G L} {onFace : G → IndexKey}
    {onKey : L → IndexKey} {sites : List (IndexKey × Point)}
    {flags : List (Flag IndexKey IndexKey)}
    (hR : R.Polyhedral)
    (heuler : R.doubleEuler = mesh.faces.incidence.doubleEuler)
    (hface : Set.InjOn onFace R.faces)
    (hkey : Set.InjOn onKey R.tails)
    (hflags : ∀ f v w, ⟨f, v, w⟩ ∈ flags ↔ R.rename onFace onKey f v w)
    (hsites : ∀ v, v ∈ sites.map Prod.fst ↔ v ∈ onKey '' R.tails)
    (name : String) :
    ∃ out, (mesh.requireInRange >>=
        fun _ => Blueprint.build { sites, flags } name) = .ok out ∧
      out.Polyhedral ∧
      out.eulerCharacteristic = mesh.eulerCharacteristic := by
  obtain ⟨out, hout, hpoly, hdouble⟩ :=
    Blueprint.exists_polyhedral_of_roles hR hface hkey hflags hsites name
  refine ⟨out, ?_, hpoly, ?_⟩
  · rw [requireInRange_bind h.inRange]
    exact hout
  · rw [heuler, ← h.two_mul_eulerCharacteristic] at hdouble
    omega

end Mesh
end Polyhedra
