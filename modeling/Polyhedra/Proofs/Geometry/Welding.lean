import Mathlib
import Polyhedra.Geometry.Welding

/-!
# Welding a sequence of points

Points are welded one after the other.  Whatever the positions are, exactly
the indices of the stored points are given out.  When any two points of a
sequence are equal or further apart than the tolerance, a point gets the
index of the stored point that is equal to it.
-/

namespace Polyhedra
namespace WeldingGrid

/-- Welding some points one after the other gives some indices. -/
inductive Welds : WeldingGrid → List Point → List ℕ → WeldingGrid → Prop
  | nil {grid} : Welds grid [] [] grid
  | cons {grid p points indices after}
        (h : Welds ((weld p).run grid).2 points indices after) :
      Welds grid (p :: points) (((weld p).run grid).1 :: indices) after

variable {grid after : WeldingGrid} {p : Point}

theorem Welds.append {points others : List Point} {indices more : List ℕ}
    {middle : WeldingGrid}
    (h : Welds grid points indices middle)
    (h' : Welds middle others more after) :
    Welds grid (points ++ others) (indices ++ more) after := by
  induction h with
  | nil => exact h'
  | cons _ ih => exact .cons (ih h')

theorem welds_mapM {α β : Type} {f : α → StateM WeldingGrid β}
    {points : α → List Point} {indices : β → List ℕ}
    (h : ∀ a grid,
      Welds grid (points a) (indices ((f a).run grid).1) ((f a).run grid).2)
    (list : List α) (grid : WeldingGrid) :
    Welds grid (list.flatMap points) (((list.mapM f).run grid).1.flatMap
      indices) ((list.mapM f).run grid).2 := by
  induction list generalizing grid with
  | nil => exact .nil
  | cons a list ih =>
      rw [List.mapM_cons]
      exact (h a grid).append (ih _)

/-! ## The stored points -/

theorem run_weld_of_find? {k : ℕ} (h : grid.find? p = some k) :
    (weld p).run grid = (k, grid) := by
  change weld p grid = _
  simp only [weld, h]

theorem run_weld_of_not_found (h : grid.find? p = none) :
    (weld p).run grid = (grid.points.size, grid.push p) := by
  change weld p grid = _
  simp only [weld, h]

theorem isNear_iff {k : ℕ} :
    grid.isNear p k = true ↔
      ∃ q, grid.points[k]? = some q ∧ q.distance p < grid.tolerance := by
  unfold isNear
  split
  next q hq => simp [hq]
  next hq => simp [hq]

theorem isNear_of_find? {k : ℕ} (h : grid.find? p = some k) :
    grid.isNear p k = true := by
  obtain ⟨cell, -, hcell⟩ := List.exists_of_findSome?_eq_some h
  split at hcell
  · exact Array.find?_some hcell
  · cases hcell

theorem not_isNear_of_not_found
    (h : grid.find? p = none)
    {bucket : Array ℕ}
    (hbucket : grid.cells[grid.cellOf p]? = some bucket)
    {k : ℕ}
    (hk : k ∈ bucket) :
    grid.isNear p k ≠ true := by
  have hcell : grid.cellOf p ∈ (grid.cellOf p).neighborhood := by
    simp [Cell.neighborhood]
  have hnone := List.findSome?_eq_none_iff.mp h _ hcell
  rw [hbucket] at hnone
  exact Array.find?_eq_none.mp hnone k hk

/-- One point gets the index of a stored point; a new index is the next
one. -/
theorem size_run_weld (grid : WeldingGrid) (p : Point) :
    ((weld p).run grid).1 < ((weld p).run grid).2.points.size ∧
      grid.points.size ≤ ((weld p).run grid).2.points.size ∧
      ∀ k, grid.points.size ≤ k → k < ((weld p).run grid).2.points.size →
        k = ((weld p).run grid).1 := by
  cases hfind : grid.find? p with
  | some k =>
      rw [run_weld_of_find? hfind]
      obtain ⟨q, hq, -⟩ := isNear_iff.mp (isNear_of_find? hfind)
      obtain ⟨hlt, -⟩ := Array.getElem?_eq_some_iff.mp hq
      exact ⟨hlt, le_rfl, fun k hle hlt => absurd hlt (Nat.not_lt.mpr hle)⟩
  | none =>
      rw [run_weld_of_not_found hfind]
      simp only [push, Array.size_push]
      exact ⟨Nat.lt_succ_self _, Nat.le_succ _, fun k hle hlt => by omega⟩

/-- The indices that are given out are those of stored points, and every new
one is given out. -/
theorem Welds.size {points : List Point} {indices : List ℕ}
    (h : Welds grid points indices after) :
    grid.points.size ≤ after.points.size ∧
      (∀ k ∈ indices, k < after.points.size) ∧
      ∀ k, grid.points.size ≤ k → k < after.points.size → k ∈ indices := by
  induction h with
  | nil =>
      exact ⟨le_rfl, by simp,
        fun k hle hlt => absurd hlt (Nat.not_lt.mpr hle)⟩
  | @cons grid p points indices after _ ih =>
      obtain ⟨hindex, hsize, hnew⟩ := size_run_weld grid p
      obtain ⟨hle, hlt, hall⟩ := ih
      refine ⟨hsize.trans hle, ?_, fun k hk hk' => ?_⟩
      · intro k hk
        rcases List.mem_cons.mp hk with rfl | hk
        · exact hindex.trans_le hle
        · exact hlt k hk
      · by_cases hold : k < ((weld p).run grid).2.points.size
        · exact hnew k hk hold ▸ .head _
        · exact .tail _ (hall k (Nat.not_lt.mp hold) hk')

theorem Welds.mem_indices_iff {tolerance : Float} {points : List Point}
    {indices : List ℕ} (h : Welds (.empty tolerance) points indices after)
    {k : ℕ} :
    k ∈ indices ↔ k < after.points.size :=
  ⟨h.size.2.1 k, h.size.2.2 k (Nat.zero_le k)⟩

/-! ## Points that are equal or far apart -/

/-- Two points of the set are near exactly when they are equal. -/
def Separated (tolerance : Float) (points : Set Point) : Prop :=
  ∀ p ∈ points, ∀ q ∈ points, q.distance p < tolerance ↔ q = p

/-- The grid stores points of the set, each once and in the bucket of its
cell. -/
structure Exact (tolerance : Float) (points : Set Point)
    (grid : WeldingGrid) : Prop where
  tolerance : grid.tolerance = tolerance
  mem : ∀ (k : ℕ) q, grid.points[k]? = some q → q ∈ points
  injective : ∀ (k l : ℕ) q, grid.points[k]? = some q →
    grid.points[l]? = some q → k = l
  bucket : ∀ (k : ℕ) q, grid.points[k]? = some q →
    ∃ indices, grid.cells[grid.cellOf q]? = some indices ∧ k ∈ indices

/-- The stored points keep their indices. -/
def Extends (grid after : WeldingGrid) : Prop :=
  ∀ (k : ℕ) q, grid.points[k]? = some q → after.points[k]? = some q

theorem exact_empty (tolerance : Float) (points : Set Point) :
    Exact tolerance points (.empty tolerance) where
  tolerance := rfl
  mem := by simp [empty]
  injective := by simp [empty]
  bucket := by simp [empty]

section Separated

variable {tolerance : Float} {set : Set Point}
  (hseparated : Separated tolerance set)
include hseparated

theorem Exact.push
    (hgrid : Exact tolerance set grid)
    (hp : p ∈ set)
    (hfind : grid.find? p = none) :
    Exact tolerance set (grid.push p) := by
  have hget : ∀ {k : ℕ} {q}, (grid.push p).points[k]? = some q ↔
      k = grid.points.size ∧ q = p ∨ grid.points[k]? = some q := by
    intro k q
    simp only [WeldingGrid.push, Array.getElem?_push]
    split
    next heq => simp [heq, eq_comm]
    next hne => simp [hne]
  -- a stored point equal to `p` would have been found in the cell of `p`
  have hnew : ∀ {k : ℕ}, grid.points[k]? ≠ some p := by
    intro k hk
    obtain ⟨indices, hindices, hmem⟩ := hgrid.bucket k p hk
    apply not_isNear_of_not_found hfind hindices hmem
    rw [isNear_iff, hgrid.tolerance]
    exact ⟨p, hk, (hseparated p hp p hp).mpr rfl⟩
  refine ⟨hgrid.tolerance, ?_, ?_, ?_⟩
  · intro k q hq
    rcases hget.mp hq with ⟨-, rfl⟩ | hold
    · exact hp
    · exact hgrid.mem k q hold
  · intro k l q hk hl
    rcases hget.mp hk with ⟨rfl, rfl⟩ | hold
    · rcases hget.mp hl with ⟨rfl, -⟩ | hold'
      · rfl
      · exact absurd hold' hnew
    · rcases hget.mp hl with ⟨-, rfl⟩ | hold'
      · exact absurd hold hnew
      · exact hgrid.injective k l q hold hold'
  · intro k q hq
    change ∃ indices,
        (grid.cells.insert (grid.cellOf p) ((grid.cells.getD (grid.cellOf p)
          #[]).push grid.points.size))[grid.cellOf q]? = some indices ∧
      k ∈ indices
    rw [Std.ExtTreeMap.getElem?_insert]
    rcases hget.mp hq with ⟨rfl, rfl⟩ | hold
    · exact ⟨_, if_pos Std.ReflCmp.compare_self, Array.mem_push_self⟩
    · obtain ⟨indices, hindices, hmem⟩ := hgrid.bucket k q hold
      split
      next heq =>
          have hcell : grid.cellOf p = grid.cellOf q :=
            Std.LawfulEqCmp.eq_of_compare heq
          refine ⟨_, rfl, Array.mem_push_of_mem _ ?_⟩
          rwa [hcell, Std.ExtTreeMap.getD_eq_getD_getElem?, hindices]
      next => exact ⟨indices, hindices, hmem⟩

theorem Exact.run_weld
    (hgrid : Exact tolerance set grid)
    (hp : p ∈ set) :
    Exact tolerance set ((weld p).run grid).2 ∧
      grid.Extends ((weld p).run grid).2 ∧
      ((weld p).run grid).2.points[((weld p).run grid).1]? = some p := by
  cases hfind : grid.find? p with
  | some k =>
      rw [run_weld_of_find? hfind]
      obtain ⟨q, hq, hnear⟩ := isNear_iff.mp (isNear_of_find? hfind)
      rw [hgrid.tolerance, hseparated p hp q (hgrid.mem k q hq)] at hnear
      exact ⟨hgrid, fun _ _ h => h, hnear ▸ hq⟩
  | none =>
      rw [run_weld_of_not_found hfind]
      refine ⟨hgrid.push hseparated hp hfind,
        fun k q hq => ?_, by simp [WeldingGrid.push]⟩
      obtain ⟨hlt, -⟩ := Array.getElem?_eq_some_iff.mp hq
      simpa [WeldingGrid.push, Array.getElem?_push, hlt.ne] using hq

end Separated

/-- When every step keeps a grid exact and its result is right for the grid
it leaves, a run over a list keeps the grid exact and all results are right
at its end. -/
theorem Exact.run_mapM {α β : Type} {tolerance : Float} {set : Set Point}
    {f : α → StateM WeldingGrid β} {R : WeldingGrid → α → β → Prop}
    (hextends : ∀ {grid after : WeldingGrid} a b, grid.Extends after →
      R grid a b → R after a b)
    {list : List α}
    (hstep : ∀ a ∈ list, ∀ grid, Exact tolerance set grid →
      Exact tolerance set ((f a).run grid).2 ∧
        grid.Extends ((f a).run grid).2 ∧
        R ((f a).run grid).2 a ((f a).run grid).1)
    (hgrid : Exact tolerance set grid) :
    Exact tolerance set ((list.mapM f).run grid).2 ∧
      grid.Extends ((list.mapM f).run grid).2 ∧
      List.Forall₂ (R ((list.mapM f).run grid).2) list
        ((list.mapM f).run grid).1 := by
  induction list generalizing grid with
  | nil => exact ⟨hgrid, fun _ _ h => h, .nil⟩
  | cons a list ih =>
      rw [List.mapM_cons]
      obtain ⟨hnext, hkeep, hresult⟩ := hstep a (.head _) grid hgrid
      obtain ⟨hafter, hkeep', hrest⟩ :=
        ih (fun b hb => hstep b (.tail _ hb)) hnext
      exact ⟨hafter, fun k q hq => hkeep' k q (hkeep k q hq),
        .cons (hextends _ _ hkeep' hresult) hrest⟩

end WeldingGrid
end Polyhedra
