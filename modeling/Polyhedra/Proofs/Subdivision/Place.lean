import Mathlib
import Polyhedra.Proofs.Subdivision.Tiling

/-!
# Places on the surface

A lattice point lies at a corner of its triangle, on an edge or inside.
Lattice points of two triangles are the same place when they lie at the same
corner, or on the same edge and equally many steps from one of its ends; a
point inside is a place of its own.  When no two triangles share two edges
this is the case exactly when the two points have the same weights.
-/

namespace Polyhedra
namespace Subdivision

/-- The lattice point lies at the corner `v` of the triangle. -/
inductive AtCorner (n : ℕ) : Face → ℕ × ℕ → ℕ → Prop
  | first {a b c} : AtCorner n [a, b, c] (0, 0) a
  | second {a b c} : AtCorner n [a, b, c] (n, 0) b
  | third {a b c} : AtCorner n [a, b, c] (0, n) c

/-- The lattice point lies on the edge between `x` and `y`, `m` of `n` steps
from `x`. -/
inductive OnEdge (n : ℕ) : Face → ℕ × ℕ → ℕ → ℕ → ℕ → Prop
  | first {a b c m} (hm : m ≤ n) : OnEdge n [a, b, c] (m, 0) a b m
  | second {a b c m} (hm : m ≤ n) : OnEdge n [a, b, c] (n - m, m) b c m
  | third {a b c m} (hm : m ≤ n) : OnEdge n [a, b, c] (0, n - m) c a m
  | reverse {face point x y m} :
      OnEdge n face point x y m → OnEdge n face point y x (n - m)

end Subdivision

open Subdivision

/-- The point `p` of the face `f` and the point `q` of the face `g` are the
same place: they are the same lattice point, or they lie at the same corner,
or on the same edge equally far from its ends.
-/
def Surface.SamePlace (surface : Surface) (n f : ℕ) (p : ℕ × ℕ) (g : ℕ)
    (q : ℕ × ℕ) : Prop :=
  f = g ∧ p = q ∨
    ∃ face other, surface[f]? = some face ∧ surface[g]? = some other ∧
      ((∃ v, AtCorner n face p v ∧ AtCorner n other q v) ∨
        ∃ x y m, OnEdge n face p x y m ∧ OnEdge n other q x y m)

namespace Subdivision

variable {n : ℕ} {face : Face} {point : ℕ × ℕ}

theorem AtCorner.place_eq {v : ℕ} (h : AtCorner n face point v) :
    place n face point = Multiset.replicate n v := by
  cases h <;> simp [place]

theorem OnEdge.place_eq {x y m : ℕ} (h : OnEdge n face point x y m) :
    m ≤ n ∧
      place n face point =
        Multiset.replicate (n - m) x + Multiset.replicate m y := by
  induction h with
  | first hm => exact ⟨hm, by simp [place]⟩
  | second hm => exact ⟨hm, by simp [place, Nat.sub_sub_self hm]⟩
  | third hm => exact ⟨hm, by simp [place, Nat.sub_sub_self hm, add_comm]⟩
  | reverse _ ih =>
      obtain ⟨hm, hplace⟩ := ih
      exact ⟨Nat.sub_le _ _, by rw [hplace, Nat.sub_sub_self hm, add_comm]⟩

variable {a b c : ℕ}

theorem exists_atCorner (n : ℕ) {v : ℕ} (hv : v ∈ [a, b, c]) :
    ∃ point, AtCorner n [a, b, c] point v := by
  simp only [List.mem_cons, List.not_mem_nil, or_false] at hv
  rcases hv with rfl | rfl | rfl
  exacts [⟨_, .first⟩, ⟨_, .second⟩, ⟨_, .third⟩]

theorem exists_onEdge {x y m : ℕ}
    (hx : x ∈ [a, b, c])
    (hy : y ∈ [a, b, c])
    (hne : x ≠ y)
    (hm : m ≤ n) :
    ∃ point, OnEdge n [a, b, c] point x y m := by
  have hreverse : ∀ {x y}, (∃ point, OnEdge n [a, b, c] point y x (n - m)) →
      ∃ point, OnEdge n [a, b, c] point x y m := by
    rintro x y ⟨point, h⟩
    have hback := h.reverse
    rw [Nat.sub_sub_self hm] at hback
    exact ⟨point, hback⟩
  simp only [List.mem_cons, List.not_mem_nil, or_false] at hx hy
  rcases hx with rfl | rfl | rfl <;> rcases hy with rfl | rfl | rfl
  exacts [absurd rfl hne, ⟨_, .first hm⟩,
    hreverse ⟨_, .third (Nat.sub_le _ _)⟩,
    hreverse ⟨_, .first (Nat.sub_le _ _)⟩, absurd rfl hne, ⟨_, .second hm⟩,
    ⟨_, .third hm⟩, hreverse ⟨_, .second (Nat.sub_le _ _)⟩, absurd rfl hne]

theorem atCorner_of_place_eq
    (hnodup : [a, b, c].Nodup)
    {v : ℕ}
    (hv : v ∈ [a, b, c])
    (h : place n [a, b, c] point = Multiset.replicate n v) :
    AtCorner n [a, b, c] point v := by
  obtain ⟨other, hother⟩ := exists_atCorner n hv
  have heq := congrArg (coordinates [a, b, c]) (h.trans hother.place_eq.symm)
  rw [coordinates_place hnodup, coordinates_place hnodup] at heq
  exact heq ▸ hother

theorem onEdge_of_place_eq
    (hnodup : [a, b, c].Nodup)
    {x y m : ℕ}
    (hx : x ∈ [a, b, c])
    (hy : y ∈ [a, b, c])
    (hne : x ≠ y)
    (hm : m ≤ n)
    (h : place n [a, b, c] point =
      Multiset.replicate (n - m) x + Multiset.replicate m y) :
    OnEdge n [a, b, c] point x y m := by
  obtain ⟨other, hother⟩ := exists_onEdge hx hy hne hm
  have heq :=
    congrArg (coordinates [a, b, c]) (h.trans hother.place_eq.2.symm)
  rw [coordinates_place hnodup, coordinates_place hnodup] at heq
  exact heq ▸ hother

/-- The lattice points inside a triangle. -/
def inside (n : ℕ) : Set (ℕ × ℕ) := {p | 0 < p.1 ∧ 0 < p.2 ∧ p.1 + p.2 < n}

theorem mem_place_iff_of_inside {v : ℕ} (hpoint : point ∈ inside n) :
    v ∈ place n [a, b, c] point ↔ v ∈ [a, b, c] := by
  obtain ⟨hi, hj, hij⟩ := hpoint
  have hk : n - point.1 - point.2 ≠ 0 := by omega
  simp [place, Multiset.mem_replicate, hk, hi.ne', hj.ne', or_assoc]

/-- A lattice point lies at a corner, within an edge or inside. -/
theorem lattice_cases (hpoint : point.1 + point.2 ≤ n) :
    (∃ v ∈ [a, b, c], AtCorner n [a, b, c] point v) ∨
      (∃ x y m, (x, y) ∈ Face.steps [a, b, c] ∧ 0 < m ∧ m < n ∧
        OnEdge n [a, b, c] point x y m) ∨ point ∈ inside n := by
  obtain ⟨i, j⟩ := point
  change i + j ≤ n at hpoint
  rcases Nat.eq_zero_or_pos j with rfl | hj
  · rcases Nat.eq_zero_or_pos i with rfl | hi
    · exact .inl ⟨a, by simp, .first⟩
    · rcases eq_or_lt_of_le hpoint with heq | hlt
      · obtain rfl : i = n := heq
        exact .inl ⟨b, by simp, .second⟩
      · exact .inr (.inl
          ⟨a, b, i, by simp [Face.mem_steps_three], hi, hlt, .first hpoint⟩)
  · rcases Nat.eq_zero_or_pos i with rfl | hi
    · rcases eq_or_lt_of_le hpoint with heq | hlt
      · obtain rfl : j = n := by omega
        exact .inl ⟨c, by simp, .third⟩
      · refine .inr (.inl ⟨c, a,
          n - j, by simp [Face.mem_steps_three], by omega, by omega, ?_⟩)
        have hthird : OnEdge n [a, b, c] (0, n - (n - j)) c a (n - j) :=
          .third (Nat.sub_le _ _)
        rwa [Nat.sub_sub_self (by omega)] at hthird
    · rcases eq_or_lt_of_le hpoint with heq | hlt
      · refine .inr
          (.inl ⟨b, c, j, by simp [Face.mem_steps_three], hj, by omega, ?_⟩)
        obtain rfl : i = n - j := by omega
        exact .second (by omega)
      · exact .inr (.inr ⟨hi, hj, hlt⟩)

end Subdivision

namespace Surface

variable {surface : Surface} {n : ℕ}

/-- A face whose corners all belong to another face is this face. -/
theorem eq_of_corners
    (hclosed : surface.checkClosed = .ok ())
    (htriangular : surface.Triangular)
    (hapart : surface.EdgesApart)
    {f g a b c : ℕ} {other : Face}
    (hface : surface[f]? = some [a, b, c])
    (hother : surface[g]? = some other)
    (hcorners : ∀ v ∈ [a, b, c], v ∈ other) : f = g := by
  have hsimple := nodup_of_triangular hclosed htriangular
  have hincidence :=
    (checkClosed_iff_closed_of_triangular htriangular).mp hclosed
  have hcorner : ∀ {v}, v ∈ [a, b, c] → v ∈ surface.incidence.corners g :=
    fun hv => (mem_corners_iff hother).mpr (hcorners _ hv)
  obtain ⟨hab, hbc, -⟩ := incidence_of_triangle hface
  exact Incidence.eq_of_corners hincidence (incidence_triangular htriangular
      hsimple) (shared_of_edgesApart hincidence hapart) hab hbc
    (hcorner (by simp)) (hcorner (by simp)) (hcorner (by simp))

theorem eq_of_place_eq_of_inside
    (hclosed : surface.checkClosed = .ok ())
    (htriangular : surface.Triangular)
    (hapart : surface.EdgesApart)
    {f g : ℕ} {face other : Face} {p q : ℕ × ℕ}
    (hface : surface[f]? = some face)
    (hother : surface[g]? = some other)
    (hp : p ∈ inside n)
    (heq : place n face p = place n other q) : f = g ∧ p = q := by
  have hsimple := nodup_of_triangular hclosed htriangular
  obtain ⟨a, b, c, rfl, hnodup⟩ := exists_triangle htriangular hsimple hface
  obtain ⟨a', b', c', rfl, -⟩ := exists_triangle htriangular hsimple hother
  have hcorners : ∀ v ∈ [a, b, c], v ∈ [a', b', c'] := by
    intro v hv
    rw [← mem_place_iff_of_inside hp, heq] at hv
    exact mem_of_mem_place hv
  obtain rfl :=
    eq_of_corners hclosed htriangular hapart hface hother hcorners
  rw [← Option.some.inj (hface.symm.trans hother)] at heq
  have hpoints := congrArg (coordinates [a, b, c]) heq
  rw [coordinates_place hnodup, coordinates_place hnodup] at hpoints
  exact ⟨rfl, hpoints⟩

theorem SamePlace.place_eq {f g : ℕ} {face other : Face} {p q : ℕ × ℕ}
    (hface : surface[f]? = some face)
    (hother : surface[g]? = some other)
    (h : surface.SamePlace n f p g q) :
    place n face p = place n other q := by
  rcases h with ⟨rfl, rfl⟩ | ⟨face', other', hface', hother', hsame⟩
  · rw [Option.some.inj (hface.symm.trans hother)]
  · obtain rfl := Option.some.inj (hface.symm.trans hface')
    obtain rfl := Option.some.inj (hother.symm.trans hother')
    rcases hsame with ⟨v, hv, hv'⟩ | ⟨x, y, m, hm, hm'⟩
    · rw [hv.place_eq, hv'.place_eq]
    · rw [hm.place_eq.2, hm'.place_eq.2]

/-- Lattice points with the same weights lie at the same corner, on the same
edge or, when all weights are positive, in the same triangle. -/
theorem samePlace_of_place_eq
    (hclosed : surface.checkClosed = .ok ())
    (htriangular : surface.Triangular)
    (hapart : surface.EdgesApart)
    (hn : 0 < n)
    {f g : ℕ} {face other : Face} {p q : ℕ × ℕ}
    (hface : surface[f]? = some face)
    (hother : surface[g]? = some other)
    (hp : p.1 + p.2 ≤ n)
    (heq : place n face p = place n other q) :
    surface.SamePlace n f p g q := by
  have hsimple := nodup_of_triangular hclosed htriangular
  obtain ⟨a, b, c, rfl, hnodup⟩ := exists_triangle htriangular hsimple hface
  obtain ⟨a', b', c', rfl, hnodup'⟩ :=
    exists_triangle htriangular hsimple hother
  rcases lattice_cases hp with ⟨v, -, hv⟩ | ⟨x, y, m, hstep, hm, hlt, hxy⟩ |
    hinside
  · have hplace := heq.symm.trans hv.place_eq
    have hmem : v ∈ place n [a', b', c'] q := by
      rw [hplace]
      exact Multiset.mem_replicate.mpr ⟨hn.ne', rfl⟩
    exact .inr ⟨_, _, hface, hother, .inl
      ⟨v, hv, atCorner_of_place_eq hnodup' (mem_of_mem_place hmem) hplace⟩⟩
  · have hplace := heq.symm.trans hxy.place_eq.2
    have hx : x ∈ place n [a', b', c'] q := by
      rw [hplace]
      exact Multiset.mem_add.mpr
        (.inl (Multiset.mem_replicate.mpr ⟨by omega, rfl⟩))
    have hy : y ∈ place n [a', b', c'] q := by
      rw [hplace]
      exact Multiset.mem_add.mpr
        (.inr (Multiset.mem_replicate.mpr ⟨hm.ne', rfl⟩))
    have hne : x ≠ y :=
      ((checkClosed_iff_closed_of_triangular htriangular).mp hclosed).ne
        ⟨_, hface, hstep⟩
    exact .inr ⟨_, _, hface, hother, .inr ⟨x, y, m, hxy, onEdge_of_place_eq
      hnodup' (mem_of_mem_place hx) (mem_of_mem_place hy) hne hlt.le hplace⟩⟩
  · exact .inl (eq_of_place_eq_of_inside hclosed htriangular hapart hface
      hother hinside heq)

/-- Lattice points are the same place exactly when they have the same
weights. -/
theorem samePlace_iff
    (hclosed : surface.checkClosed = .ok ())
    (htriangular : surface.Triangular)
    (hapart : surface.EdgesApart)
    (hn : 0 < n)
    {f g : ℕ} {face other : Face} {p q : ℕ × ℕ}
    (hface : surface[f]? = some face)
    (hother : surface[g]? = some other)
    (hp : p.1 + p.2 ≤ n) :
    surface.SamePlace n f p g q ↔ place n face p = place n other q :=
  ⟨SamePlace.place_eq hface hother,
    samePlace_of_place_eq hclosed htriangular hapart hn hface hother hp⟩

end Surface
end Polyhedra
