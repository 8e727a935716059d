import Mathlib
import Polyhedra.Proofs.Geometry.Welding

/-!
# The buckets of a welding grid

The buckets list the stored points by their cells, and nothing else.  A
search goes through the cells that touch the cell of the new point, so it
misses no stored point that lies in one of them.  As a point is only stored
after such a search, stored points in cells that touch are never near.

Nothing is assumed of the distance here: it is what floating-point numbers
give, and the cells cut off how far the search looks.
-/

namespace Polyhedra

namespace Cell

/-- The cells are the same or share a corner at least: they differ by one
place at most on every axis. -/
def Touches (cell other : Cell) : Prop :=
  |other.x - cell.x| ≤ 1 ∧ |other.y - cell.y| ≤ 1 ∧ |other.z - cell.z| ≤ 1

/-- The neighbourhood of a cell is made of the cells that touch it. -/
theorem mem_neighborhood_iff {cell other : Cell} :
    other ∈ cell.neighborhood ↔ cell.Touches other := by
  have hoffset :
      ∀ {a b : ℤ}, |b - a| ≤ 1 ↔ ∃ d ∈ ([-1, 0, 1] : List ℤ), a + d = b := by
    intro a b
    simp only [abs_le, List.mem_cons, List.not_mem_nil, or_false,
      exists_eq_or_imp, exists_eq_left]
    omega
  simp only [neighborhood, Touches, hoffset, List.mem_flatMap, List.mem_map]
  constructor
  · rintro ⟨dx, hx, dy, hy, dz, hz, rfl⟩
    exact ⟨⟨dx, hx, rfl⟩, ⟨dy, hy, rfl⟩, dz, hz, rfl⟩
  · rintro ⟨⟨dx, hx, hx'⟩, ⟨dy, hy, hy'⟩, dz, hz, hz'⟩
    exact ⟨dx, hx, dy, hy, dz, hz, by rw [hx', hy', hz']⟩

end Cell

namespace WeldingGrid

variable {grid : WeldingGrid} {p : Point}

/-- The indices of the stored points in a cell, in ascending order. -/
def indicesIn (grid : WeldingGrid) (cell : Cell) : List ℕ :=
  (List.range grid.points.size).filter fun k =>
    grid.points[k]?.map grid.cellOf = some cell

/-- The bucket of every cell lists the points in it, each of them once, and
nothing else. -/
def Listed (grid : WeldingGrid) : Prop :=
  ∀ cell, (grid.cells.getD cell #[]).toList = grid.indicesIn cell

/-- A stored point is near `p` and lies in a cell that touches the one of
`p`. -/
def HasNear (grid : WeldingGrid) (p : Point) (k : ℕ) : Prop :=
  ∃ q, grid.points[k]? = some q ∧ (grid.cellOf p).Touches (grid.cellOf q) ∧
    q.distance p < grid.tolerance

/-- No stored point is near one that was stored later, as far as the search
can see. -/
def Apart (grid : WeldingGrid) : Prop :=
  ∀ (j k : ℕ) (p : Point), j < k → grid.points[k]? = some p →
    ¬ grid.HasNear p j

/-- What every grid keeps that is filled from empty. -/
structure Sound (grid : WeldingGrid) : Prop where
  listed : grid.Listed
  apart : grid.Apart

theorem sound_empty (tolerance : Float) : (empty tolerance).Sound where
  listed := by simp [Listed, indicesIn, empty]
  apart := by simp [Apart, empty]

theorem mem_indicesIn_iff {cell : Cell} {k : ℕ} :
    k ∈ grid.indicesIn cell ↔
      ∃ q, grid.points[k]? = some q ∧ grid.cellOf q = cell := by
  simp only [indicesIn, List.mem_filter, List.mem_range, decide_eq_true_eq,
    Option.map_eq_some_iff]
  constructor
  · exact fun h => h.2
  · rintro ⟨q, hq, hcell⟩
    exact ⟨(Array.getElem?_eq_some_iff.mp hq).1, q, hq, hcell⟩

/-! ## The search -/

section Listed

variable (hlisted : grid.Listed)
include hlisted

theorem Listed.mem_bucket_iff {cell : Cell} {bucket : Array ℕ}
    (hbucket : grid.cells[cell]? = some bucket) {k : ℕ} :
    k ∈ bucket ↔ ∃ q, grid.points[k]? = some q ∧ grid.cellOf q = cell := by
  have hlist := hlisted cell
  rw [Std.ExtTreeMap.getD_eq_getD_getElem?, hbucket, Option.getD_some]
    at hlist
  rw [← mem_indicesIn_iff, ← hlist, Array.mem_toList_iff]

theorem Listed.hasNear_of_find? {k : ℕ} (h : grid.find? p = some k) :
    grid.HasNear p k := by
  obtain ⟨cell, hcell, hfound⟩ := List.exists_of_findSome?_eq_some h
  split at hfound
  next bucket hbucket =>
      obtain ⟨q, hq, rfl⟩ :=
        (hlisted.mem_bucket_iff hbucket).mp
          (Array.mem_of_find?_eq_some hfound)
      obtain ⟨q', hq', hnear⟩ := isNear_iff.mp (Array.find?_some hfound)
      obtain rfl := Option.some.inj (hq.symm.trans hq')
      exact ⟨q, hq, Cell.mem_neighborhood_iff.mp hcell, hnear⟩
  next => cases hfound

/-- The search misses no stored point. -/
theorem Listed.find?_eq_none_iff :
    grid.find? p = none ↔ ∀ k, ¬ grid.HasNear p k := by
  constructor
  · rintro h k ⟨q, hq, htouches, hnear⟩
    have hcell :=
      List.findSome?_eq_none_iff.mp h _
        (Cell.mem_neighborhood_iff.mpr htouches)
    have hmem : k ∈ grid.indicesIn (grid.cellOf q) :=
      mem_indicesIn_iff.mpr ⟨q, hq, rfl⟩
    rw [← hlisted, Std.ExtTreeMap.getD_eq_getD_getElem?] at hmem
    cases hbucket : grid.cells[grid.cellOf q]? with
    | none => simp [hbucket] at hmem
    | some bucket =>
        rw [hbucket] at hcell hmem
        exact Array.find?_eq_none.mp hcell k (Array.mem_toList_iff.mp hmem)
          (isNear_iff.mpr ⟨q, hq, hnear⟩)
  · intro h
    cases hfind : grid.find? p with
    | none => rfl
    | some k => exact (h k (hlisted.hasNear_of_find? hfind)).elim

end Listed

/-! ## One point -/

theorem getElem?_push {k : ℕ} {q : Point} :
    (grid.push p).points[k]? = some q ↔
      k = grid.points.size ∧ q = p ∨ grid.points[k]? = some q := by
  simp only [push, Array.getElem?_push]
  split
  next heq => simp [heq, eq_comm]
  next hne => simp [hne]

theorem indicesIn_push (cell : Cell) :
    (grid.push p).indicesIn cell = grid.indicesIn cell ++ if grid.cellOf p =
      cell then [grid.points.size] else [] := by
  have hold : (List.range grid.points.size).filter
        (fun k => (grid.push p).points[k]?.map grid.cellOf = some cell) =
      grid.indicesIn cell := by
    refine List.filter_congr fun k hk => ?_
    rw [List.mem_range] at hk
    simp [push, Array.getElem?_push, hk.ne]
  have hsize : (grid.push p).points.size = grid.points.size + 1 :=
    Array.size_push _
  change (List.range (grid.push p).points.size).filter
    (fun k => (grid.push p).points[k]?.map grid.cellOf = some cell) = _
  rw [hsize, List.range_succ, List.filter_append, hold]
  simp [push, List.filter_singleton]

theorem Listed.push (hlisted : grid.Listed) : (grid.push p).Listed := by
  intro cell
  rw [indicesIn_push, ← hlisted cell]
  change ((grid.cells.insert (grid.cellOf p)
      ((grid.cells.getD (grid.cellOf p) #[]).push grid.points.size)).getD
    cell #[]).toList = _
  rw [Std.ExtTreeMap.getD_insert]
  by_cases hcell : grid.cellOf p = cell
  · subst hcell
    simp [Std.ReflCmp.compare_self]
  · simp [hcell]

theorem Sound.push
    (h : grid.Sound)
    (hfind : grid.find? p = none) :
    (grid.push p).Sound where
  listed := h.listed.push
  apart := by
    have hnone := h.listed.find?_eq_none_iff.mp hfind
    rintro j k q hjk hk ⟨q', hj, hnear⟩
    rcases getElem?_push.mp hj with ⟨rfl, -⟩ | hold
    · -- the new point has the last index
      rcases getElem?_push.mp hk with ⟨rfl, -⟩ | hk
      · exact hjk.false
      · exact hjk.not_gt (Array.getElem?_eq_some_iff.mp hk).1
    · rcases getElem?_push.mp hk with ⟨rfl, rfl⟩ | hk
      · exact hnone j ⟨q', hold, hnear⟩
      · exact h.apart j k q hjk hk ⟨q', hold, hnear⟩

theorem Sound.run_weld (h : grid.Sound) (p : Point) :
    ((weld p).run grid).2.Sound := by
  cases hfind : grid.find? p with
  | none =>
      rw [run_weld_of_not_found hfind]
      exact h.push hfind
  | some k =>
      rw [run_weld_of_find? hfind]
      exact h

theorem prefix_run_weld (grid : WeldingGrid) (p : Point) :
    grid.points.toList <+: ((weld p).run grid).2.points.toList := by
  cases hfind : grid.find? p with
  | none =>
      rw [run_weld_of_not_found hfind]
      exact ⟨[p], by simp [push]⟩
  | some k => rw [run_weld_of_find? hfind]

theorem tolerance_run_weld (grid : WeldingGrid) (p : Point) :
    ((weld p).run grid).2.tolerance = grid.tolerance := by
  cases hfind : grid.find? p with
  | none => rw [run_weld_of_not_found hfind]; rfl
  | some k => rw [run_weld_of_find? hfind]

/-- A point is stored when the search finds none near it; otherwise the grid
stays as it is. -/
theorem Sound.weld_cases (h : grid.Sound) (p : Point) :
    (((weld p).run grid).1 = grid.points.size ∧
        ((weld p).run grid).2.points = grid.points.push p ∧
        ∀ j, ¬ grid.HasNear p j) ∨
      ((weld p).run grid).2 = grid ∧
      grid.HasNear p ((weld p).run grid).1 := by
  cases hfind : grid.find? p with
  | none =>
      rw [run_weld_of_not_found hfind]
      exact .inl ⟨rfl, rfl, h.listed.find?_eq_none_iff.mp hfind⟩
  | some k =>
      rw [run_weld_of_find? hfind]
      exact .inr ⟨rfl, h.listed.hasNear_of_find? hfind⟩

/-! ## A sequence of points -/

section Welds

variable {after : WeldingGrid} {points : List Point} {indices : List ℕ}

theorem Welds.sound
    (hwelds : Welds grid points indices after)
    (h : grid.Sound) : after.Sound := by
  induction hwelds with
  | nil => exact h
  | @cons grid p _ _ _ _ ih => exact ih (h.run_weld p)

theorem Welds.tolerance_eq (hwelds : Welds grid points indices after) :
    after.tolerance = grid.tolerance := by
  induction hwelds with
  | nil => rfl
  | @cons grid p _ _ _ _ ih => exact ih.trans (tolerance_run_weld grid p)

theorem Welds.prefix_points (hwelds : Welds grid points indices after) :
    grid.points.toList <+: after.points.toList := by
  induction hwelds with
  | nil => exact List.prefix_rfl
  | @cons grid p _ _ _ _ ih => exact (prefix_run_weld grid p).trans ih

end Welds

/-- The grid that some points are welded into, from empty, one after the
other. -/
def ofPoints (tolerance : Float) (points : List Point) : WeldingGrid :=
  ((points.mapM weld).run (.empty tolerance)).2

theorem exists_welds (grid : WeldingGrid) (points : List Point) :
    ∃ indices,
      Welds grid points indices ((points.mapM weld).run grid).2 := by
  have hwelds : Welds grid (points.flatMap fun p => [p])
      (((points.mapM weld).run grid).1.flatMap fun k => [k])
      ((points.mapM weld).run grid).2 :=
    welds_mapM (fun _ _ => .cons .nil) points grid
  rw [List.flatMap_singleton'] at hwelds
  exact ⟨_, hwelds⟩

theorem ofPoints_append (tolerance : Float) (points more : List Point) :
    ofPoints tolerance (points ++ more) =
      ((more.mapM weld).run (ofPoints tolerance points)).2 := by
  unfold ofPoints
  rw [List.mapM_append]
  rfl

/-- What holds after any points have been welded.  The buckets list the
stored points by their cells, and no stored point is near a later one in a
cell that touches its own.  The next point is stored last when no stored
point is near it in such a cell; else nothing changes, and it gets the index
of one that is.  No later point moves a stored one. -/
theorem ofPoints_invariant (tolerance : Float) (points : List Point) :
    (ofPoints tolerance points).tolerance = tolerance ∧
      (ofPoints tolerance points).Listed ∧
      (ofPoints tolerance points).Apart ∧
      (∀ p, ((weld p).run (ofPoints tolerance points)).1 <
        (ofPoints tolerance (points ++ [p])).points.size ∧
        (((weld p).run (ofPoints tolerance points)).1 =
          (ofPoints tolerance points).points.size ∧
          (ofPoints tolerance (points ++ [p])).points =
            (ofPoints tolerance points).points.push p ∧
          (∀ j, ¬ (ofPoints tolerance points).HasNear p j) ∨
          ofPoints tolerance (points ++ [p]) = ofPoints tolerance points ∧
          (ofPoints tolerance points).HasNear p
            ((weld p).run (ofPoints tolerance points)).1)) ∧
      ∀ more, (ofPoints tolerance points).points.toList <+:
        (ofPoints tolerance (points ++ more)).points.toList := by
  obtain ⟨_, hwelds⟩ := exists_welds (.empty tolerance) points
  have hsound : (ofPoints tolerance points).Sound :=
    hwelds.sound (sound_empty tolerance)
  refine ⟨hwelds.tolerance_eq, hsound.listed, hsound.apart,
    fun p => ?_, fun more => ?_⟩
  · have hnext : ofPoints tolerance (points ++ [p]) =
        ((weld p).run (ofPoints tolerance points)).2 :=
      ofPoints_append tolerance points [p]
    rw [hnext]
    exact ⟨(size_run_weld _ p).1, hsound.weld_cases p⟩
  · obtain ⟨_, hmore⟩ := exists_welds (ofPoints tolerance points) more
    rw [ofPoints_append]
    exact hmore.prefix_points

end WeldingGrid
end Polyhedra
