import Polyhedra.Geometry.Point
import Std.Data.ExtTreeMap

/-!
# Welding of nearby points

Points closer than a tolerance become one.  Space is cut into cubic cells
with the tolerance as their side, so a stored point within the tolerance of a
new one lies in its cell or in one of the 26 around it.  The search goes
through these cells in a fixed order and takes the first point that is near
enough.
-/

namespace Polyhedra

/-- A cubic cell of the grid, by its place along each axis. -/
structure Cell where
  x : Int
  y : Int
  z : Int
deriving DecidableEq

namespace Cell

/-- By the first axis, then by the second and the third. -/
def order : Cell → Cell → Ordering :=
  compareLex (compareOn x) (compareLex (compareOn y) (compareOn z))

instance : Std.TransCmp order :=
  inferInstanceAs (Std.TransCmp
    (compareLex (compareOn x) (compareLex (compareOn y) (compareOn z))))

instance : Std.LawfulEqCmp order where
  eq_of_compare {a b} h := by
    simp only [order, compareLex, compareOn, Ordering.then_eq_eq,
      Std.LawfulEqOrd.compare_eq_iff_eq] at h
    obtain ⟨hx, hy, hz⟩ := h
    cases a
    cases b
    simp_all

/-- A cell and the 26 around it, in the order of the search. -/
def neighborhood (cell : Cell) : List Cell :=
  let offsets : List Int := [-1, 0, 1]
  offsets.flatMap fun dx => offsets.flatMap fun dy => offsets.map fun dz =>
    ⟨cell.x + dx, cell.y + dy, cell.z + dz⟩

end Cell

structure WeldingGrid where
  tolerance : Float
  points : Array Point
  /-- For every cell the indices of the points in it, in order of
  insertion. -/
  cells : Std.ExtTreeMap Cell (Array Nat) Cell.order

namespace WeldingGrid

def empty (tolerance : Float) : WeldingGrid where
  tolerance := tolerance
  points := #[]
  cells := ∅

/-- The place of a coordinate along its axis; a coordinate beyond the range
of 64-bit integers goes to its end, and one that is not a number to zero. -/
def place (tolerance x : Float) : Int :=
  (x / tolerance).floor.toInt64.toInt

def cellOf (grid : WeldingGrid) (p : Point) : Cell :=
  ⟨place grid.tolerance p.x, place grid.tolerance p.y,
    place grid.tolerance p.z⟩

/-- Whether the stored point `k` is within the tolerance of `p`. -/
def isNear (grid : WeldingGrid) (p : Point) (k : Nat) : Bool :=
  match grid.points[k]? with
  | some q => q.distance p < grid.tolerance
  | none => false

/-- The first stored point near `p` in the cells around it. -/
def find? (grid : WeldingGrid) (p : Point) : Option Nat :=
  (grid.cellOf p).neighborhood.findSome? fun cell =>
    match grid.cells[cell]? with
    | some indices => indices.find? (grid.isNear p)
    | none => none

/-- Stores a point under the next index. -/
def push (grid : WeldingGrid) (p : Point) : WeldingGrid :=
  let index := grid.points.size
  let cell := grid.cellOf p
  let indices := (grid.cells.getD cell #[]).push index
  { grid with
    points := grid.points.push p
    cells := grid.cells.insert cell indices }

/-- The index of a stored point near `p`, or of `p` itself, which is then
stored. -/
def weld (p : Point) : StateM WeldingGrid Nat := fun grid =>
  match grid.find? p with
  | some k => (k, grid)
  | none => (grid.points.size, grid.push p)

end WeldingGrid

end Polyhedra
