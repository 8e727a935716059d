import Mathlib
import Polyhedra.Proofs.Except
import Polyhedra.Proofs.Incidence.Basic
import Polyhedra.Proofs.Surface.Cycle
import Polyhedra.Surface.Closure

/-!
# Closed surfaces

The check of a surface enters every directed edge under its face.  It passes
exactly when every face has three corners, no directed edge is entered twice,
and the reverse of every edge is entered under another face.
-/

namespace Polyhedra

/-- The incidence of a surface: which faces, by index, have which directed
edges. -/
def Surface.incidence (surface : Surface) : Incidence ℕ ℕ :=
  fun i v w => ∃ face, surface[i]? = some face ∧ (v, w) ∈ face.edges

namespace EdgeOwners

/-- The map holds exactly the given edges, each under one face. -/
def Records (owners : EdgeOwners) (entries : List (Edge × ℕ)) : Prop :=
  (entries.map Prod.fst).Nodup ∧
    ∀ edge i, owners[edge]? = some i ↔ (edge, i) ∈ entries

theorem records_empty : Records ∅ [] := by
  simp [Records]

variable {owners claimed : EdgeOwners} {entries : List (Edge × ℕ)}

theorem Records.getElem?_eq_none_iff
    (h : owners.Records entries)
    {edge : Edge} :
    owners[edge]? = none ↔ edge ∉ entries.map Prod.fst := by
  rw [Option.eq_none_iff_forall_not_mem]
  simp [h.2 edge]

theorem Records.claim_eq_ok_iff
    (h : owners.Records entries)
    {index : ℕ} {edge : Edge} :
    owners.claim index edge = .ok claimed ↔
      edge ∉ entries.map Prod.fst ∧ owners.insert edge index = claimed := by
  rw [claim, ← h.getElem?_eq_none_iff]
  cases owners[edge]? <;> simp

theorem Records.insert
    (h : owners.Records entries)
    {edge : Edge} (index : ℕ)
    (hnew : edge ∉ entries.map Prod.fst) :
    Records (owners.insert edge index) (entries ++ [(edge, index)]) := by
  constructor
  · rw [List.map_append]
    exact h.1.append (by simp) (by simpa using hnew)
  · intro other i
    rw [Std.ExtTreeMap.getElem?_insert]
    by_cases heq : edge = other
    · subst heq
      have hnot : ∀ i, (edge, i) ∉ entries := fun i hmem =>
        hnew (List.mem_map.mpr ⟨(edge, i), hmem, rfl⟩)
      simp [Std.ReflCmp.compare_self, hnot, eq_comm]
    · simp [heq, Ne.symm heq, h.2]

/-- The edges of a face under its index. -/
abbrev entriesOf (edges : List Edge) (index : ℕ) : List (Edge × ℕ) :=
  edges.map fun edge => (edge, index)

theorem Records.of_claims {edges : List Edge} {index : ℕ}
    (h : owners.Records entries)
    (hclaims : edges.foldlM (fun owners edge => owners.claim index edge)
      owners = .ok claimed) :
    claimed.Records (entries ++ entriesOf edges index) := by
  induction edges generalizing owners entries with
  | nil =>
      obtain rfl : owners = claimed := Except.ok.inj hclaims
      simpa using h
  | cons edge edges ih =>
      rw [List.foldlM_cons, Except.bind_eq_ok_iff] at hclaims
      obtain ⟨next, hclaim, hrest⟩ := hclaims
      obtain ⟨hnew, rfl⟩ := h.claim_eq_ok_iff.mp hclaim
      simpa using ih (h.insert index hnew) hrest

theorem Records.exists_claims {edges : List Edge} {index : ℕ}
    (h : owners.Records entries)
    (hnodup : ((entries ++ entriesOf edges index).map Prod.fst).Nodup) :
    ∃ claimed, edges.foldlM (fun owners edge => owners.claim index edge)
      owners = .ok claimed := by
  induction edges generalizing owners entries with
  | nil => exact ⟨owners, rfl⟩
  | cons edge edges ih =>
      have hnew : edge ∉ entries.map Prod.fst := by
        rw [List.map_append, List.nodup_append] at hnodup
        exact fun hmem => hnodup.2.2 edge hmem edge (by simp) rfl
      obtain ⟨claimed, hclaimed⟩ :=
        ih (h.insert index hnew) (by simpa using hnodup)
      refine ⟨claimed, ?_⟩
      rw [List.foldlM_cons, h.claim_eq_ok_iff.mpr ⟨hnew, rfl⟩]
      exact hclaimed

/-- All edges of some faces, each under the index of its face. -/
abbrev entriesOfFaces (faces : List (Face × ℕ)) : List (Edge × ℕ) :=
  faces.flatMap fun (face, index) => entriesOf face.edges index

theorem Records.of_claimFaces {faces : List (Face × ℕ)}
    (h : owners.Records entries)
    (hclaims :
      faces.foldlM (fun owners (face, index) => owners.claimFace face index)
        owners = .ok claimed) :
    claimed.Records (entries ++ entriesOfFaces faces) ∧
      ∀ face ∈ faces, 3 ≤ face.1.length := by
  induction faces generalizing owners entries with
  | nil =>
      obtain rfl : owners = claimed := Except.ok.inj hclaims
      simpa using h
  | cons entry faces ih =>
      obtain ⟨face, index⟩ := entry
      rw [List.foldlM_cons, Except.bind_eq_ok_iff] at hclaims
      obtain ⟨next, hface, hrest⟩ := hclaims
      simp only [claimFace] at hface
      split at hface
      next => simp at hface
      next hlength =>
          obtain ⟨hrecords, hlengths⟩ := ih (h.of_claims hface) hrest
          exact ⟨by simpa using hrecords,
            List.forall_mem_cons.mpr ⟨not_lt.mp hlength, hlengths⟩⟩

theorem Records.exists_claimFaces {faces : List (Face × ℕ)}
    (h : owners.Records entries)
    (hlength : ∀ face ∈ faces, 3 ≤ face.1.length)
    (hnodup : ((entries ++ entriesOfFaces faces).map Prod.fst).Nodup) :
    ∃ claimed,
      faces.foldlM (fun owners (face, index) => owners.claimFace face index)
        owners = .ok claimed := by
  induction faces generalizing owners entries with
  | nil => exact ⟨owners, rfl⟩
  | cons entry faces ih =>
      obtain ⟨face, index⟩ := entry
      obtain ⟨hface, hfaces⟩ := List.forall_mem_cons.mp hlength
      have hsplit : entries ++ entriesOfFaces ((face, index) :: faces) =
          (entries ++ entriesOf face.edges index) ++
          entriesOfFaces faces := by
        simp
      rw [hsplit] at hnodup
      have hfirst :
          ((entries ++ entriesOf face.edges index).map Prod.fst).Nodup := by
        rw [List.map_append] at hnodup
        exact hnodup.of_append_left
      obtain ⟨next, hnext⟩ := h.exists_claims hfirst
      obtain ⟨claimed, hclaimed⟩ := ih (h.of_claims hnext) hfaces hnodup
      have hshort : ¬ face.length < 3 := not_lt.mpr hface
      refine ⟨claimed, ?_⟩
      simp only [List.foldlM_cons, claimFace, hshort, if_false, hnext]
      exact hclaimed

end EdgeOwners

namespace Surface

variable {surface : Surface}

theorem mem_indexed_iff {face : Face} {i : ℕ} :
    (face, i) ∈ surface.indexed ↔ surface[i]? = some face :=
  List.mem_zipIdx_iff_getElem?

/-- The faces of two surfaces one after the other. -/
theorem incidence_append {other : Surface} {i v w : ℕ} :
    Surface.incidence (surface ++ other) i v w ↔
      surface.incidence i v w ∨
      ∃ j, surface.length + j = i ∧ other.incidence j v w := by
  unfold incidence
  by_cases hi : i < surface.length
  · rw [List.getElem?_append_left hi]
    refine (or_iff_left ?_).symm
    rintro ⟨j, rfl, -⟩
    omega
  · have hnone : surface[i]? = none := List.getElem?_eq_none (not_lt.mp hi)
    rw [List.getElem?_append_right (not_lt.mp hi), hnone]
    constructor
    · intro h
      exact .inr ⟨i - surface.length, by omega, h⟩
    · rintro (⟨face, hface, -⟩ | ⟨j, rfl, h⟩)
      · simp at hface
      · rwa [Nat.add_sub_cancel_left]

theorem mem_entriesOfFaces_iff {edge : Edge} {i : ℕ} :
    (edge, i) ∈ EdgeOwners.entriesOfFaces surface.indexed ↔
      surface.incidence i edge.1 edge.2 := by
  simp only [EdgeOwners.entriesOfFaces, EdgeOwners.entriesOf,
    List.mem_flatMap, List.mem_map, Prod.exists, mem_indexed_iff, incidence,
    Prod.mk.injEq]
  constructor
  · rintro ⟨face, _, hface, v, w, hedge, rfl, rfl⟩
    exact ⟨face, hface, hedge⟩
  · rintro ⟨face, hface, hedge⟩
    exact ⟨face, i, hface, edge.1, edge.2, hedge, rfl, rfl⟩

theorem map_fst_entriesOfFaces :
    (EdgeOwners.entriesOfFaces surface.indexed).map Prod.fst =
      surface.flatMap Face.edges := by
  have hfaces : surface = surface.indexed.map Prod.fst :=
    (List.zipIdx_map_fst 0 surface).symm
  conv_rhs => rw [hfaces, List.flatMap_map]
  rw [List.map_flatMap]
  refine List.flatMap_congr fun entry _ => ?_
  simp [Function.comp_def]

theorem edgeOwners_records {owners : EdgeOwners}
    (h : surface.edgeOwners = .ok owners)
    {edge : Edge} {i : ℕ} :
    owners[edge]? = some i ↔ surface.incidence i edge.1 edge.2 := by
  rw [(EdgeOwners.records_empty.of_claimFaces h).1.2]
  exact mem_entriesOfFaces_iff

theorem exists_edgeOwners_iff :
    (∃ owners, surface.edgeOwners = .ok owners) ↔
      (∀ face ∈ surface, 3 ≤ face.length) ∧
      (surface.flatMap Face.edges).Nodup := by
  have hlength : (∀ face ∈ surface.indexed, 3 ≤ face.1.length) ↔
      ∀ face ∈ surface, 3 ≤ face.length := by
    simp only [Prod.forall, mem_indexed_iff]
    constructor
    · intro h face hface
      obtain ⟨i, hi⟩ := List.mem_iff_getElem?.mp hface
      exact h face i hi
    · exact fun h face i hi => h face (List.mem_of_getElem? hi)
  constructor
  · rintro ⟨owners, h⟩
    obtain ⟨hrecords, hlong⟩ := EdgeOwners.records_empty.of_claimFaces h
    exact ⟨hlength.mp hlong, map_fst_entriesOfFaces ▸ hrecords.1⟩
  · rintro ⟨hlong, hnodup⟩
    refine EdgeOwners.records_empty.exists_claimFaces (hlength.mpr hlong) ?_
    rwa [List.nil_append, map_fst_entriesOfFaces]

theorem unpairedFault?_eq_none_iff {owners : EdgeOwners}
    (h : surface.edgeOwners = .ok owners) :
    surface.unpairedFault? owners = none ↔
      ∀ i v w, surface.incidence i v w →
        ∃ j, j ≠ i ∧ surface.incidence j w v := by
  have hfault : ∀ {i v w}, owners.edgeFault? i (v, w) = none ↔
      ∃ j, j ≠ i ∧ surface.incidence j w v := by
    intro i v w
    have howner : ∀ j, owners[(w, v)]? = some j ↔ surface.incidence j w v :=
      fun j => edgeOwners_records h
    rw [EdgeOwners.edgeFault?, Prod.swap_prod_mk]
    cases hreverse : owners[(w, v)]? with
    | none =>
        simp only [reduceCtorEq, false_iff, not_exists, not_and]
        intro j _ hj
        simp [hreverse] at howner
        exact howner j hj
    | some j =>
        by_cases hj : j = i
        · subst hj
          simp only [if_true, reduceCtorEq, false_iff, not_exists, not_and]
          intro m hm hinc
          exact hm
            (Option.some.inj (((howner m).mpr hinc).symm.trans hreverse))
        · simp only [hj, if_false, true_iff]
          exact ⟨j, hj, (howner j).mp hreverse⟩
  rw [unpairedFault?, List.findSome?_eq_none_iff]
  simp only [Prod.forall, mem_indexed_iff, List.findSome?_eq_none_iff,
    hfault]
  constructor
  · rintro hall i v w ⟨face, hface, hedge⟩
    exact hall face i hface v w hedge
  · intro hall face i hface v w hedge
    exact hall i v w ⟨face, hface, hedge⟩

/-- A surface passes the check exactly when every face has three corners, no
directed edge occurs twice, and the reverse of every edge occurs in another
face. -/
theorem checkClosed_eq_ok_iff :
    surface.checkClosed = .ok () ↔
      (∀ face ∈ surface, 3 ≤ face.length) ∧
      (surface.flatMap Face.edges).Nodup ∧
      ∀ i v w, surface.incidence i v w →
        ∃ j, j ≠ i ∧ surface.incidence j w v := by
  rw [← and_assoc, ← exists_edgeOwners_iff, checkClosed,
    Except.bind_eq_ok_iff]
  constructor
  · rintro ⟨owners, howners, hfault⟩
    refine ⟨⟨owners, howners⟩, (unpairedFault?_eq_none_iff howners).mp ?_⟩
    cases hcase : surface.unpairedFault? owners with
    | none => rfl
    | some fault => simp [hcase] at hfault
  · rintro ⟨⟨owners, howners⟩, hpaired⟩
    refine ⟨owners, howners, ?_⟩
    rw [(unpairedFault?_eq_none_iff howners).mpr hpaired]

end Surface
end Polyhedra
