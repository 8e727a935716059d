import Mathlib
import Polyhedra.Proofs.Flag.Realization
import Polyhedra.Proofs.Surface.Closed

/-!
# Faces told by their corners

When the roles of the faces are listed, each with the keys it goes through,
the list tells all faces of a mesh that realizes them: every listed cycle of
keys is one face, and there are no others.  Only the order of the faces and
the corner that each starts at are left open.
-/

namespace Polyhedra

variable {G L : Type}

/-- The faces of `mesh` are the cycles of keys in the list, each of them
once, when every key is read as its vertex. -/
def Mesh.Traces (mesh : Mesh) (onVertex : L → ℕ) (cycles : List (List L)) :
    Prop :=
  (mesh.faces.map Cycle.ofList).Perm
    (cycles.map fun keys => Cycle.ofList (keys.map onVertex))

/-- The face `f` goes through the keys in order, through each of them
once. -/
structure Incidence.GoesThrough (R : Incidence G L) (f : G) (keys : List L) :
    Prop where
  ne_nil : keys ≠ []
  nodup : keys.Nodup
  iff : ∀ v w, R f v w ↔ (v, w) ∈ Face.steps keys

/-- The list has faces of an incidence, none of them twice, with the keys
that they go through. -/
structure Incidence.Follows (R : Incidence G L) (named : List (G × List L)) :
    Prop where
  nodup : (named.map Prod.fst).Nodup
  steps : ∀ f keys, (f, keys) ∈ named → R.GoesThrough f keys

/-- The list has all faces of an incidence, each of them once, with the keys
it goes through. -/
structure Incidence.Tours (R : Incidence G L) (named : List (G × List L)) :
    Prop extends R.Follows named where
  all : ∀ f ∈ R.faces, f ∈ named.map Prod.fst

namespace Incidence.Follows

variable {R : Incidence G L} {named named' : List (G × List L)}

theorem of_map {α : Type} {entries : List α} {name : α → G}
    {keys : α → List L}
    (hentries : entries.Nodup)
    (hname : ∀ entry ∈ entries,
      ∀ other ∈ entries, name entry = name other → entry = other)
    (hsteps : ∀ entry ∈ entries, R.GoesThrough (name entry) (keys entry)) :
    R.Follows (entries.map fun entry => (name entry, keys entry)) where
  nodup := by
    rw [List.map_map]
    exact hentries.map_on hname
  steps := by
    intro f cycle hentry
    obtain ⟨entry, hmem, heq⟩ := List.mem_map.mp hentry
    obtain ⟨rfl, rfl⟩ := Prod.mk.inj heq
    exact hsteps entry hmem

/-- Two lists without a common face make one list. -/
theorem append
    (h : R.Follows named)
    (h' : R.Follows named')
    (hdisjoint : ∀ entry ∈ named, ∀ entry' ∈ named', entry.1 ≠ entry'.1) :
    R.Follows (named ++ named') where
  nodup := by
    rw [List.map_append]
    refine h.nodup.append h'.nodup ?_
    intro f hf hf'
    obtain ⟨entry, hentry, rfl⟩ := List.mem_map.mp hf
    obtain ⟨entry', hentry', heq⟩ := List.mem_map.mp hf'
    exact hdisjoint entry hentry entry' hentry' heq.symm
  steps := by
    intro f keys hentry
    rcases List.mem_append.mp hentry with hentry | hentry
    exacts [h.steps f keys hentry, h'.steps f keys hentry]

end Incidence.Follows

variable {R : Incidence G L} {named : List (G × List L)}

theorem Incidence.GoesThrough.mem_faces {f : G} {keys : List L}
    (h : R.GoesThrough f keys) : f ∈ R.faces := by
  obtain ⟨v, hv⟩ := List.exists_mem_of_ne_nil _ h.ne_nil
  obtain ⟨w, hvw⟩ := Face.exists_step_from hv
  exact Incidence.mem_faces ((h.iff v w).mpr hvw)

namespace Mesh.Realizes

variable {mesh : Mesh} {sites : List (L × Point)} {onFace : G → ℕ}
  {onVertex : L → ℕ}
  (h : mesh.Realizes R sites onFace onVertex)
include h

theorem vertex_lt {key : L} (hkey : key ∈ sites.map Prod.fst) :
    onVertex key < mesh.vertexCount := by
  obtain ⟨p, -, hp⟩ := h.position key hkey
  exact (Array.getElem?_eq_some_iff.mp hp).1

theorem bijOn_vertex :
    Set.BijOn onVertex {key | key ∈ sites.map Prod.fst}
      {v | v < mesh.vertexCount} := by
  have hmaps : onVertex '' {key | key ∈ sites.map Prod.fst} ⊆
      {v | v < mesh.vertexCount} := by
    rintro _ ⟨key, hkey, rfl⟩
    exact h.vertex_lt hkey
  have hcount : {v | v < mesh.vertexCount}.ncard = mesh.vertexCount :=
    Set.ncard_Iio_nat _
  have himage :=
    Set.eq_of_subset_of_ncard_le hmaps
      (by rw [hcount, h.injOn_vertex.ncard_image, h.vertexCount])
      (Set.finite_lt_nat _)
  exact himage ▸ h.injOn_vertex.bijOn_image

theorem inRange : mesh.InRange := by
  intro face hface v hv
  obtain ⟨i, hi⟩ := List.mem_iff_getElem?.mp hface
  obtain ⟨w, hvw⟩ := Surface.exists_incidence_iff.mpr ⟨face, hi, hv⟩
  rw [h.incidence] at hvw
  obtain ⟨f, a, b, hab, -, rfl, -⟩ := hvw
  exact h.vertex_lt (h.registered a (Incidence.mem_tails hab))

theorem closed (hR : R.Closed) : mesh.Closed where
  closed := h.checkClosed hR
  simple face hface := (h.nodup face hface).1
  inRange := h.inRange

/-- What realizes a polyhedral incidence is polyhedral, when it registers no
other keys. -/
theorem polyhedral
    (hR : R.Polyhedral)
    (hsites : {key | key ∈ sites.map Prod.fst} = R.tails) :
    mesh.Polyhedral := by
  refine Surface.polyhedral_iff.mpr ⟨?_, h.nodup, ?_⟩
  · rw [h.incidence]
    exact hR.rename h.injOn_face h.injOn_tails
  · rw [h.incidence, Incidence.tails_rename, ← hsites]
    exact h.bijOn_vertex.image_eq

/-- A key with one site only stands there. -/
theorem position_of_unique {key : L} {p : Point}
    (hsite : (key, p) ∈ sites)
    (hunique : ∀ q, (key, q) ∈ sites → q = p) :
    mesh.vertices[onVertex key]? = some p := by
  obtain ⟨q, hq, hposition⟩ := h.position key (List.mem_map_of_mem hsite)
  rwa [hunique q hq] at hposition

/-- When no key has two sites, every key stands at its own. -/
theorem position_eq
    (hunique : ∀ key p q, (key, p) ∈ sites → (key, q) ∈ sites → p = q)
    {key : L} {p : Point}
    (hsite : (key, p) ∈ sites) :
    mesh.vertices[onVertex key]? = some p :=
  h.position_of_unique hsite fun q hq => hunique key q p hq hsite

theorem exists_face_of_goesThrough {f : G} {keys : List L}
    (hkeys : R.GoesThrough f keys) :
    ∃ face, mesh.faces[onFace f]? = some face ∧ face ~r keys.map onVertex :=
  h.exists_face hkeys.ne_nil hkeys.nodup hkeys.iff

theorem perm_indices (hnamed : R.Tours named) :
    (List.range mesh.faces.length).Perm
      (named.map fun entry => onFace entry.1) := by
  refine (List.perm_ext_iff_of_nodup List.nodup_range ?_).mpr fun i => ?_
  · rw [← Function.comp_def, ← List.map_map]
    refine hnamed.nodup.map_on ?_
    simp only [List.mem_map]
    rintro _ ⟨entry, hentry, rfl⟩ _ ⟨entry', hentry', rfl⟩ heq
    exact h.injOn_face (hnamed.steps _ _ hentry).mem_faces
      (hnamed.steps _ _ hentry').mem_faces heq
  · rw [List.mem_range, List.mem_map]
    constructor
    · intro hi
      obtain ⟨f, hf, rfl⟩ := h.exists_role (List.getElem?_eq_getElem hi)
      obtain ⟨entry, hentry, rfl⟩ := List.mem_map.mp (hnamed.all f hf)
      exact ⟨entry, hentry, rfl⟩
    · rintro ⟨entry, hentry, rfl⟩
      obtain ⟨face, hface, -⟩ :=
        h.exists_face_of_goesThrough (hnamed.steps _ _ hentry)
      exact (List.getElem?_eq_some_iff.mp hface).1

theorem traces (hnamed : R.Tours named) :
    mesh.Traces onVertex (named.map Prod.snd) := by
  have hlist :
      (List.range mesh.faces.length).map (fun i => mesh.faces.getD i []) =
        mesh.faces := by
    apply List.ext_getElem
    · rw [List.length_map, List.length_range]
    · intro i _ hi
      rw [List.getElem_map, List.getElem_range, List.getD_eq_getElem _ _ hi]
  have hread : (named.map fun entry =>
        Cycle.ofList (mesh.faces.getD (onFace entry.1) [])) =
      named.map fun entry => Cycle.ofList (entry.2.map onVertex) := by
    apply List.map_congr_left
    intro entry hentry
    obtain ⟨face, hface, hrotated⟩ :=
      h.exists_face_of_goesThrough (hnamed.steps _ _ hentry)
    rw [List.getD_eq_getElem?_getD, hface]
    exact Cycle.coe_eq_coe.mpr hrotated
  have hperm :=
    ((h.perm_indices hnamed).map fun i => mesh.faces.getD i []).map
      Cycle.ofList
  rw [hlist, List.map_map, List.map_map, Function.comp_def,
    Function.comp_def, hread] at hperm
  unfold Traces
  rw [List.map_map]
  exact hperm

end Mesh.Realizes
end Polyhedra
