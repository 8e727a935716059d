import Mathlib
import Polyhedra.Proofs.Flag.Construction

/-!
# Constructions on numbers

When the faces and the vertices of a construction are numbered from zero on,
and their keys ascend with the numbers, the mesh gives every face and every
vertex its own number as its index.
-/

namespace Polyhedra

section Ascending

variable {K : Type} [Ord K]

/-- The number of a key among numbered keys is the number of keys below
it. -/
theorem countP_lt_of_numbered [Std.OrientedOrd K] {keys : List K}
    {key : ℕ → K} {count : ℕ}
    (hordered : keys.Pairwise fun a b => compare a b = .lt)
    (hascending : ∀ a b, a < b → b < count → compare (key a) (key b) = .lt)
    (hmem : ∀ k, k ∈ keys ↔ ∃ a < count, key a = k) :
    keys = (List.range count).map key ∧
      ∀ a < count,
        (keys.countP fun other => compare other (key a) = .lt) = a := by
  have hkeys : keys = (List.range count).map key := by
    apply eq_of_ascending hordered
    · rw [List.pairwise_map]
      apply List.pairwise_lt_range.imp_of_mem
      intro a b _ hb hab
      exact hascending a b hab (List.mem_range.mp hb)
    · intro k
      rw [hmem]
      simp
  refine ⟨hkeys, fun a ha => ?_⟩
  apply (countP_lt_eq_iff hordered ((hmem _).mpr ⟨a, ha, rfl⟩)).mpr
  rw [hkeys, List.getElem?_map, List.getElem?_range ha]
  rfl

theorem injOn_of_ascending [Std.ReflOrd K] {key : ℕ → K} {count : ℕ}
    (hascending : ∀ a b, a < b → b < count → compare (key a) (key b) = .lt) :
    Set.InjOn key {a | a < count} := by
  have hne : ∀ {a b}, a < b → b < count → key a ≠ key b := by
    intro a b hab hb heq
    have hlt := hascending a b hab hb
    rw [heq, Std.ReflOrd.compare_self] at hlt
    cases hlt
  intro a ha b hb heq
  rcases lt_trichotomy a b with hab | hab | hab
  · exact absurd heq (hne hab hb)
  · exact hab
  · exact absurd heq.symm (hne hab ha)

end Ascending

/-- A numbered key has its number as its index when the keys before it are
registered and all smaller keys are numbered. -/
theorem FlagSystem.rank_of_numbered {F K : Type} [Ord F] [Ord K]
    [Std.TransOrd K] [Std.LawfulEqOrd K] (system : FlagSystem F K)
    (key : ℕ → K) {count v : ℕ}
    (hascending : ∀ a b, a < b → b < count → compare (key a) (key b) = .lt)
    (hv : v < count)
    (hregistered : ∀ u < v, key u ∈ system.positions)
    (hbelow : ∀ other ∈ system.positions, compare other (key v) = .lt →
      ∃ u < count, key u = other) :
    system.rank (key v) = v := by
  have hkeys : (system.positions.keys.filter fun other =>
      compare other (key v) = .lt) = (List.range v).map key := by
    apply eq_of_ascending (Std.ExtTreeMap.ordered_keys.filter _)
    · rw [List.pairwise_map]
      apply List.pairwise_lt_range.imp_of_mem
      intro a b _ hb hab
      exact hascending a b hab ((List.mem_range.mp hb).trans hv)
    · intro other
      rw [List.mem_filter, Std.ExtTreeMap.mem_keys, decide_eq_true_eq,
        List.mem_map]
      simp only [List.mem_range]
      constructor
      · rintro ⟨hother, hlt⟩
        obtain ⟨u, hu, rfl⟩ := hbelow other hother hlt
        refine ⟨u, ?_, rfl⟩
        rcases lt_trichotomy u v with huv | rfl | hvu
        · exact huv
        · rw [Std.ReflOrd.compare_self] at hlt
          cases hlt
        · rw [Std.OrientedOrd.eq_swap, hascending v u hvu hu] at hlt
          cases hlt
      · rintro ⟨u, hu, rfl⟩
        exact ⟨hregistered u hu, hascending u v hu hv⟩
  rw [rank, List.countP_eq_length_filter, hkeys, List.length_map,
    List.length_range]

namespace Blueprint

variable {F K : Type} [Ord F] [Ord K] [Std.TransOrd F] [Std.TransOrd K]
  [Std.LawfulEqOrd F] [Std.LawfulEqOrd K] [DecidableEq F] [DecidableEq K]
  [ToString F] [ToString K]

/-- A cyclic construction between numbered vertices whose keys ascend can be
built, and its mesh has the incidence that was declared. -/
theorem exists_build_numbered {R : Incidence ℕ ℕ}
    (hR : R.Cyclic)
    {onFace : ℕ → F} {onKey : ℕ → K} {faceCount vertexCount : ℕ}
    {sites : List (K × Point)} {flags : List (Flag F K)}
    (hface :
      ∀ a b, a < b → b < faceCount → compare (onFace a) (onFace b) = .lt)
    (hkey :
      ∀ a b, a < b → b < vertexCount → compare (onKey a) (onKey b) = .lt)
    (hfaces : R.faces = {i | i < faceCount})
    (htails : R.tails = {v | v < vertexCount})
    (hflags : ∀ f v w, ⟨f, v, w⟩ ∈ flags ↔ R.rename onFace onKey f v w)
    (hsites : ∀ k, k ∈ sites.map Prod.fst ↔ ∃ v < vertexCount, onKey v = k)
    (name : String) :
    ∃ mesh, Blueprint.build { sites, flags } name = .ok mesh ∧
      mesh.name = name ∧ mesh.faces.incidence = R ∧
      mesh.vertexCount = vertexCount ∧ mesh.faceCount = faceCount ∧
      (∀ face ∈ mesh.faces, face.Nodup ∧ face ≠ []) ∧
      ∀ face ∈ mesh.faces, ∀ first ∈ face.head?, ∀ v ∈ face, first ≤ v := by
  let blueprint : Blueprint F K := { sites, flags }
  have hfaceInj : Set.InjOn onFace R.faces :=
    hfaces ▸ injOn_of_ascending hface
  have hkeyInj : Set.InjOn onKey R.tails := htails ▸ injOn_of_ascending hkey
  have hshape : blueprint.shape = R.rename (Sum.inl ∘ onFace) onKey :=
    shape_eq_rename hflags rfl
  have hcyclic : blueprint.shape.Cyclic :=
    hshape ▸ hR.rename (Sum.inl_injective.comp_injOn hfaceInj) hkeyInj
  have hregistered :
      ∀ v ∈ blueprint.shape.tails, v ∈ blueprint.sites.map Prod.fst := by
    rw [hshape, Incidence.tails_rename, htails]
    rintro _ ⟨v, hv, rfl⟩
    exact (hsites _).mpr ⟨v, hv, rfl⟩
  obtain ⟨mesh, hbuild, hname, hmesh⟩ :=
    exists_build hcyclic hregistered (by simp [blueprint]) name
  -- the keys of the faces and of the vertices in order
  have hfaceKeys : ∀ f, f ∈ blueprint.system.faces.keys ↔
      ∃ i < faceCount, onFace i = f := by
    intro f
    rw [Std.ExtTreeMap.mem_keys, mem_faces_iff]
    constructor
    · rintro ⟨⟨_, v, w⟩, hflag, rfl⟩
      obtain ⟨i, a, b, hab, rfl, rfl, rfl⟩ := (hflags _ _ _).mp hflag
      exact ⟨i, (hfaces ▸ Incidence.mem_faces hab : i ∈ {i | i < faceCount}),
        rfl⟩
    · rintro ⟨i, hi, rfl⟩
      obtain ⟨a, b, hab⟩ : i ∈ R.faces := hfaces ▸ hi
      exact ⟨⟨onFace i, onKey a, onKey b⟩,
        (hflags _ _ _).mpr (Incidence.rename_of hab), rfl⟩
  have hvertexKeys : ∀ k, k ∈ blueprint.system.positions.keys ↔
      ∃ v < vertexCount, onKey v = k := by
    intro k
    rw [Std.ExtTreeMap.mem_keys, mem_positions_iff]
    exact hsites k
  obtain ⟨hfaceList, hfaceRank⟩ :=
    countP_lt_of_numbered Std.ExtTreeMap.ordered_keys hface hfaceKeys
  obtain ⟨hvertexList, hvertexRank⟩ :=
    countP_lt_of_numbered Std.ExtTreeMap.ordered_keys hkey hvertexKeys
  refine ⟨mesh, hbuild, hname, ?_, ?_, ?_, hmesh.nodup, hmesh.head_le rfl⟩
  · rw [hmesh.incidence, hshape, Incidence.rename_rename]
    apply hR.rename_eq_self
    · rw [hfaces]
      exact hfaceRank
    · rw [htails]
      exact hvertexRank
  · have hsize := congrArg List.length hvertexList
    rw [Std.ExtTreeMap.length_keys, List.length_map, List.length_range]
      at hsize
    exact hmesh.vertexCount.trans hsize
  · have hsize := congrArg List.length hfaceList
    rw [Std.ExtTreeMap.length_keys, List.length_map, List.length_range]
      at hsize
    exact hmesh.faceCount.trans hsize

end Blueprint
end Polyhedra
