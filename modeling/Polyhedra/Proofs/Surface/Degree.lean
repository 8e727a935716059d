import Mathlib
import Polyhedra.Proofs.Surface.Count

/-!
# Degrees

The degree of a vertex is the number of corners at it.  With simple faces
these are in different faces, so it is the number of faces around the vertex.
-/

namespace Polyhedra

/-- The entries of a list that have a property, counted by their places. -/
theorem ncard_getElem?_eq_countP {α : Type} (p : α → Bool) (xs : List α) :
    {i : ℕ | ∃ x, xs[i]? = some x ∧ p x}.ncard = xs.countP p := by
  induction xs with
  | nil => simp
  | cons first rest ih =>
      have hplaces : {i : ℕ | ∃ x, (first :: rest)[i]? = some x ∧ p x} =
          Nat.succ '' {i : ℕ | ∃ x, rest[i]? = some x ∧ p x} ∪
          {i | i = 0 ∧ p first} := by
        ext i
        cases i <;> simp
      have hfinite : {i : ℕ | ∃ x, rest[i]? = some x ∧ p x}.Finite := by
        refine (Set.finite_lt_nat rest.length).subset ?_
        rintro i ⟨x, hx, -⟩
        exact (List.getElem?_eq_some_iff.mp hx).1
      have hzero : {i | i = 0 ∧ p first}.Finite :=
        (Set.finite_singleton 0).subset fun _ h => h.1
      rw [hplaces, ncard_image_union hfinite hzero Nat.succ_injective.injOn
        (fun _ _ h => Nat.succ_ne_zero _ h.1), ih, List.countP_cons]
      congr 1
      split
      next hfirst => simp [hfirst]
      next hfirst => simp [hfirst]

namespace Surface

variable {surface : Surface}

/-- The number of corners at the vertex `v`. -/
def degree (surface : Surface) (v : ℕ) : ℕ :=
  surface.flatten.count v

theorem degree_eq_countP (hsimple : ∀ face ∈ surface, face.Nodup) (v : ℕ) :
    surface.degree v = surface.countP fun face => v ∈ face := by
  unfold degree
  induction surface with
  | nil => rfl
  | cons face faces ih =>
      obtain ⟨hface, hfaces⟩ := List.forall_mem_cons.mp hsimple
      rw [List.flatten_cons, List.count_append, ih hfaces, List.countP_cons,
        hface.count, add_comm]
      simp

theorem degree_eq_ncard (hsimple : ∀ face ∈ surface, face.Nodup) (v : ℕ) :
    surface.degree v = {i | ∃ w, surface.incidence i v w}.ncard := by
  rw [degree_eq_countP hsimple, ← ncard_getElem?_eq_countP]
  simp only [exists_incidence_iff, decide_eq_true_eq]

theorem RingAt.length_eq_degree {v : ℕ} {ring : List ℕ}
    (h : surface.RingAt v ring)
    (hsimple : ∀ face ∈ surface, face.Nodup) :
    ring.length = surface.degree v := by
  have hring : {i | ∃ w, surface.incidence i v w} = ring.toFinset := by
    ext i
    rw [Set.mem_ofPred_eq, exists_incidence_iff, ← h.mem_iff, Finset.mem_coe,
      List.mem_toFinset]
  rw [degree_eq_ncard hsimple, hring, Set.ncard_coe_finset,
    List.toFinset_card_of_nodup h.nodup]

theorem degree_pos_iff {v : ℕ} :
    0 < surface.degree v ↔ ∃ face ∈ surface, v ∈ face := by
  rw [degree, List.count_pos_iff, List.mem_flatten]

theorem getElem?_foldl_modify (corners : List ℕ) (counts : Array ℕ) (v : ℕ) :
    (corners.foldl (fun counts v => counts.modify v (· + 1)) counts)[v]? =
      counts[v]?.map (· + corners.count v) := by
  induction corners generalizing counts with
  | nil => simp
  | cons corner corners ih =>
      rw [List.foldl_cons, ih, Array.getElem?_modify, List.count_cons]
      by_cases hcorner : corner = v
      · subst hcorner
        cases counts[corner]? with
        | none => simp
        | some n => simp [Nat.add_right_comm, Nat.add_assoc]
      · simp [hcorner]

theorem toList_degrees (surface : Surface) (count : ℕ) :
    (surface.degrees count).toList =
      (List.range count).map surface.degree := by
  apply List.ext_getElem?
  intro v
  rw [Array.getElem?_toList, degrees, ← List.foldl_flatten,
    getElem?_foldl_modify, List.getElem?_map]
  by_cases hv : v < count
  · simp [hv, degree]
  · simp [hv]

/-- Whether a truncation with the filter `sides` on the degree cuts the
vertex `v`. -/
def cuts (surface : Surface) (sides v : ℕ) : Bool :=
  Face.passes sides (surface.degree v)

/-- When all vertices are in use, those that pass the filter are the ones
that are counted. -/
theorem cutCount_eq_countP {count : ℕ}
    (hused : ∀ v < count, ∃ face ∈ surface, v ∈ face)
    (sides : ℕ) :
    surface.cutCount count sides =
      (List.range count).countP (surface.cuts sides) := by
  rw [cutCount, toList_degrees, List.countP_map]
  refine List.countP_congr fun v hv => ?_
  have hpos := degree_pos_iff.mpr (hused v (List.mem_range.mp hv))
  simp [cuts, hpos]

end Surface
end Polyhedra
