import Mathlib
import Polyhedra.Operator.Subdivision
import Polyhedra.Proofs.Subdivision.Refinement
import Polyhedra.Proofs.Surface.Cycle

/-!
# The lattice of a triangle

The small triangles of one triangle in lattice coordinates, and the places
that the lattice points have on the surface.
-/

namespace Polyhedra
namespace Subdivision

/-- The small triangle with its long side away from the first corner. -/
def upTriangle (i j : ℕ) : List (ℕ × ℕ) := [(i, j), (i + 1, j), (i, j + 1)]

/-- The small triangle across the long side of `upTriangle i j`. -/
def downTriangle (i j : ℕ) : List (ℕ × ℕ) :=
  [(i + 1, j), (i + 1, j + 1), (i, j + 1)]

theorem mem_triangles_iff {n : ℕ} {triangle : List (ℕ × ℕ)} :
    triangle ∈ triangles n ↔ ∃ i j, i + j < n ∧ triangle = upTriangle i j ∨
      i + j + 1 < n ∧ triangle = downTriangle i j := by
  simp only [triangles, List.mem_flatMap, List.mem_range, List.mem_cons,
    upTriangle, downTriangle]
  constructor
  · rintro ⟨i, hi, j, hj, rfl | hdown⟩
    · exact ⟨i, j, .inl ⟨by omega, rfl⟩⟩
    · split at hdown
      next hpos =>
          obtain ⟨i, rfl⟩ := Nat.exists_eq_succ_of_ne_zero hpos.ne'
          exact ⟨i, j, .inr ⟨by omega, List.mem_singleton.mp hdown⟩⟩
      next => cases hdown
  · rintro ⟨i, j, ⟨hij, rfl⟩ | ⟨hij, rfl⟩⟩
    · exact ⟨i, by omega, j, by omega, .inl rfl⟩
    · exact ⟨i + 1, by omega, j, by omega, .inr (by simp)⟩

theorem sum_le_of_mem_triangles {n : ℕ} {triangle : List (ℕ × ℕ)}
    (h : triangle ∈ triangles n)
    {p : ℕ × ℕ}
    (hp : p ∈ triangle) : p.1 + p.2 ≤ n := by
  obtain ⟨i, j, ⟨hij, rfl⟩ | ⟨hij, rfl⟩⟩ :=
    mem_triangles_iff.mp h <;>
      simp only [upTriangle, downTriangle, List.mem_cons, List.not_mem_nil,
        or_false] at hp <;> rcases hp with rfl | rfl | rfl <;> simp only <;>
      omega

theorem nodup_triangles (n : ℕ) : (triangles n).Nodup := by
  -- the triangles of one lattice point have it as their first corner
  have hhead : ∀ {i j : ℕ} {triangle : List (ℕ × ℕ)},
      triangle ∈ ([(i, j), (i + 1, j), (i, j + 1)] ::
        if 0 < i then [[(i, j), (i, j + 1), (i - 1, j + 1)]] else []) →
      triangle.head? = some (i, j) := by
    intro i j triangle h
    rcases List.mem_cons.mp h with rfl | h
    · rfl
    · split at h
      · rw [List.mem_singleton.mp h]
        rfl
      · cases h
  unfold triangles
  rw [List.nodup_flatMap]
  refine ⟨fun i _ => ?_, List.nodup_range.imp fun {i i'} hne => ?_⟩
  · rw [List.nodup_flatMap]
    refine ⟨fun j _ => ?_, List.nodup_range.imp fun {j j'} hne => ?_⟩
    · split <;> simp
    · intro triangle h h'
      have heq := (hhead h).symm.trans (hhead h')
      simp only [Option.some.injEq, Prod.mk.injEq, true_and] at heq
      exact hne heq
  · intro triangle h h'
    obtain ⟨j, -, h⟩ := List.mem_flatMap.mp h
    obtain ⟨j', -, h'⟩ := List.mem_flatMap.mp h'
    have heq := (hhead h).symm.trans (hhead h')
    simp only [Option.some.injEq, Prod.mk.injEq] at heq
    exact hne heq.1

theorem sum_two_mul_descending (m : ℕ) :
    ((List.range m).map fun i => (m - i) * 2).sum = m * (m + 1) := by
  induction m with
  | zero => rfl
  | succ m ih =>
      have hshift : ((fun i => (m + 1 - i) * 2) ∘ Nat.succ) =
          fun i => (m - i) * 2 := by
        funext i
        simp
      rw [List.range_succ_eq_map, List.map_cons, List.map_map, List.sum_cons,
        hshift, ih, Nat.sub_zero]
      ring

theorem length_triangles (n : ℕ) : (triangles n).length = n * n := by
  have hrow : ∀ i, ((List.range (n - i)).flatMap fun j =>
      [(i, j), (i + 1, j), (i, j + 1)] :: if 0 < i
        then [[(i, j), (i, j + 1), (i - 1, j + 1)]]
        else []).length = (n - i) * if 0 < i then 2 else 1 := by
    intro i
    rw [List.length_flatMap]
    split <;> simp
  unfold triangles
  rw [List.length_flatMap, List.map_congr_left fun i _ => hrow i]
  cases n with
  | zero => rfl
  | succ m =>
      have hshift :
          ((fun i => (m + 1 - i) * if 0 < i then 2 else 1) ∘ Nat.succ) =
            fun i => (m - i) * 2 := by
        funext i
        simp
      rw [List.range_succ_eq_map, List.map_cons, List.map_map, List.sum_cons,
        hshift, sum_two_mul_descending]
      simp only [Nat.sub_zero, lt_irrefl, if_false]
      ring

/-! ## Places -/

/-- The place of a lattice point of the triangle `face`: the corners with
their weights. -/
def place (n : ℕ) (face : Face) (point : ℕ × ℕ) : Multiset ℕ :=
  Multiset.replicate (n - point.1 - point.2) (face.getD 0 0) +
    Multiset.replicate point.1 (face.getD 1 0) +
    Multiset.replicate point.2 (face.getD 2 0)

/-- The lattice point at a place of the triangle `face`. -/
def coordinates (face : Face) (weights : Multiset ℕ) : ℕ × ℕ :=
  (weights.count (face.getD 1 0), weights.count (face.getD 2 0))

section Place

variable {a b c i j n : ℕ}

theorem place_first (h : i + j ≤ n) :
    place (n + 1) [a, b, c] (i, j) = a ::ₘ place n [a, b, c] (i, j) := by
  have hweight : n + 1 - i - j = n - i - j + 1 := by omega
  simp [place, hweight]

theorem place_second :
    place (n + 1) [a, b, c] (i + 1, j) = b ::ₘ place n [a, b, c] (i, j) := by
  simp [place]

theorem place_third :
    place (n + 1) [a, b, c] (i, j + 1) = c ::ₘ place n [a, b, c] (i, j) := by
  have hweight : n + 1 - i - (j + 1) = n - i - j := by omega
  simp [place, hweight]

theorem card_place {face : Face} {point : ℕ × ℕ}
    (h : point.1 + point.2 ≤ n) :
    (place n face point).card = n := by
  simp only [place, Multiset.card_add, Multiset.card_replicate]
  omega

theorem mem_of_mem_place {point : ℕ × ℕ} {v : ℕ}
    (h : v ∈ place n [a, b, c] point) : v ∈ [a, b, c] := by
  simp only [place, Multiset.mem_add, List.getD_cons_zero,
    List.getD_cons_succ] at h
  rcases h with (h | h) | h
  all_goals simp [Multiset.eq_of_mem_replicate h]

theorem count_place (hnodup : [a, b, c].Nodup) (point : ℕ × ℕ) :
    (place n [a, b, c] point).count a = n - point.1 - point.2 ∧
      (place n [a, b, c] point).count b = point.1 ∧
      (place n [a, b, c] point).count c = point.2 := by
  simp only [List.nodup_cons, List.mem_cons, List.not_mem_nil, or_false,
    not_or] at hnodup
  obtain ⟨⟨hab, hac⟩, hbc, -⟩ := hnodup
  simp [place, Multiset.count_replicate, hab, hac, hbc, Ne.symm hab,
    Ne.symm hac, Ne.symm hbc]

theorem coordinates_place (hnodup : [a, b, c].Nodup) (point : ℕ × ℕ) :
    coordinates [a, b, c] (place n [a, b, c] point) = point :=
  Prod.ext (count_place hnodup point).2.1 (count_place hnodup point).2.2

/-- Every multiset of corners of a triangle is a place of the triangle. -/
theorem place_coordinates
    (hnodup : [a, b, c].Nodup)
    {weights : Multiset ℕ}
    (hcard : weights.card = n)
    (hmem : ∀ v ∈ weights, v ∈ [a, b, c]) :
    place n [a, b, c] (coordinates [a, b, c] weights) = weights ∧
      (coordinates [a, b, c] weights).1 + (coordinates [a, b, c] weights).2 ≤
        n := by
  simp only [List.nodup_cons, List.mem_cons, List.not_mem_nil, or_false,
    not_or] at hnodup
  obtain ⟨⟨hab, hac⟩, hbc, -⟩ := hnodup
  induction weights using Multiset.induction generalizing n with
  | empty =>
      obtain rfl : n = 0 := hcard.symm
      simp [place, coordinates]
  | cons v weights ih =>
      rw [Multiset.card_cons] at hcard
      obtain ⟨hplace, hsum⟩ :=
        ih rfl fun w hw => hmem w (Multiset.mem_cons_of_mem hw)
      have hv := hmem v (Multiset.mem_cons_self _ _)
      simp only [coordinates, List.getD_cons_zero, List.getD_cons_succ]
        at hplace hsum ⊢
      subst hcard
      simp only [List.mem_cons, List.not_mem_nil, or_false] at hv
      rcases hv with rfl | rfl | rfl
      · rw [Multiset.count_cons_of_ne (Ne.symm hab),
          Multiset.count_cons_of_ne (Ne.symm hac), place_first hsum, hplace]
        exact ⟨rfl, hsum.trans (Nat.le_succ _)⟩
      · rw [Multiset.count_cons_self,
          Multiset.count_cons_of_ne (Ne.symm hbc), place_second, hplace]
        exact ⟨rfl, by omega⟩
      · rw [Multiset.count_cons_self, Multiset.count_cons_of_ne hbc,
          place_third, hplace]
        exact ⟨rfl, by omega⟩

theorem mem_steps_upTriangle (h : i + j ≤ n) {P Q : Multiset ℕ} :
    (P, Q) ∈ Face.steps ((upTriangle i j).map (place (n + 1) [a, b, c])) ↔
      ∃ x y, (x, y) ∈ Face.steps [a, b, c] ∧
        P = x ::ₘ place n [a, b, c] (i, j) ∧
        Q = y ::ₘ place n [a, b, c] (i, j) := by
  have hplaces : (upTriangle i j).map (place (n + 1) [a, b, c]) =
      [a, b, c].map fun v => v ::ₘ place n [a, b, c] (i, j) := by
    simp only [upTriangle, List.map_cons, List.map_nil, place_first h,
      place_second, place_third]
  rw [hplaces, Face.steps_map]
  simp [eq_comm]

theorem mem_steps_downTriangle
    (hnodup : [a, b, c].Nodup)
    (h : i + j ≤ n)
    {P Q : Multiset ℕ} :
    (P, Q) ∈ Face.steps ((downTriangle i j).map (place (n + 2) [a, b, c])) ↔
      ∃ x y z, (x, y) ∈ Face.steps [a, b, c] ∧
        (y, z) ∈ Face.steps [a, b, c] ∧
        P = x ::ₘ y ::ₘ place n [a, b, c] (i, j) ∧
        Q = z ::ₘ y ::ₘ place n [a, b, c] (i, j) := by
  have hplaces : (downTriangle i j).map (place (n + 2) [a, b, c]) =
      [a ::ₘ b ::ₘ place n [a, b, c] (i, j), b ::ₘ c ::ₘ
        place n [a, b, c] (i, j), c ::ₘ a ::ₘ place n [a, b, c] (i, j)] := by
    simp only [downTriangle, List.map_cons, List.map_nil, place_second,
      place_third, place_first h]
    rw [Multiset.cons_swap b a]
  have hswap := fun v w => Multiset.cons_swap v w (place n [a, b, c] (i, j))
  rw [hplaces, Face.mem_steps_three]
  simp only [Face.mem_steps_three]
  simp only [List.nodup_cons, List.mem_cons, List.not_mem_nil, or_false,
    not_or] at hnodup
  grind

end Place

end Subdivision
end Polyhedra
