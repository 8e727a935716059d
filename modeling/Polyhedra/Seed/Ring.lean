import Polyhedra.Mesh.Basic

/-!
# Solids between rings

Prisms, antiprisms and pyramids stand on a ring of unit radius; cupolas and
anticupolas have unit edges and join a ring to one with twice as many
vertices.  The base is listed backwards, so that it faces down.
-/

namespace Polyhedra

namespace Ring

def pi : Float := 3.141592653589793

def tau : Float := 6.283185307179586

/-- A point on a horizontal circle. -/
def point (radius angle height : Float) : Point :=
  ⟨radius * angle.cos, radius * angle.sin, height⟩

/-- The index of the corner after the corner `i` of a ring of `n`. -/
def next (n i : Nat) : Nat :=
  (i + 1) % n

def square (x : Float) : Float :=
  x * x

/-- The points of a ring of `n` on the unit circle; the first one stands at
the angle `shift`. -/
def unitRing (n : Nat) (shift height : Float) : List Point :=
  let step := tau / n.toFloat
  (List.range n).map fun i => point 1 (step * i.toFloat + shift) height

/-- The ring of the indices `start, …, start + n - 1`, facing up. -/
def upward (start n : Nat) : Face :=
  List.range' start n

/-- The same ring, facing down. -/
def downward (start n : Nat) : Face :=
  (upward start n).reverse

def prismFaces (n : Nat) : Surface :=
  [downward 0 n, upward n n] ++
    (List.range n).map fun i => [i, next n i, n + next n i, n + i]

/-- A prism with square sides. -/
def prism (n : Nat) : Solid :=
  let half := (pi / n.toFloat).sin
  { vertices := unitRing n 0 (-half) ++ unitRing n 0 half,
    faces := prismFaces n }

def antiprismFaces (n : Nat) : Surface :=
  [downward 0 n, upward n n] ++
    (List.range n).flatMap fun i =>
      [[i, next n i, n + i], [n + i, next n i, n + next n i]]

/-- An antiprism with equilateral triangles. -/
def antiprism (n : Nat) : Solid :=
  let angle := pi / n.toFloat
  let squaredHeight := 4 * square angle.sin - 2 + 2 * angle.cos
  let height := (if squaredHeight > 0 then squaredHeight else 0).sqrt
  { vertices := unitRing n 0 (-height / 2) ++ unitRing n angle (height / 2)
    faces := antiprismFaces n }

def pyramidFaces (n : Nat) : Surface :=
  downward 0 n :: (List.range n).map fun i => [i, next n i, n]

/-- A pyramid, with equilateral triangles where that is possible and of unit
height beyond. -/
def pyramid (n : Nat) : Solid :=
  let squaredEdge := 4 * square (pi / n.toFloat).sin
  let height := if squaredEdge > 1 then (squaredEdge - 1).sqrt else 1
  { vertices := unitRing n 0 0 ++ [⟨0, 0, height⟩], faces := pyramidFaces n }

/-- The circumradius of a regular polygon with `n` sides of unit length. -/
def circumradius (n : Nat) : Float :=
  1 / (2 * (pi / n.toFloat).sin)

/-- The lower ring of a cupola: `2 * n` points at the angles `0, step, …`. -/
def cupolaBase (n : Nat) : List Point :=
  let step := pi / n.toFloat
  (List.range (2 * n)).map fun k =>
    point (circumradius (2 * n)) (step * k.toFloat) 0

/-- The upper ring of a cupola: `n` points, turned by `shift` from every
other base corner. -/
def cupolaTop (n : Nat) (shift height : Float) : List Point :=
  let step := pi / n.toFloat
  (List.range n).map fun i =>
    point (circumradius n) (step * (2 * i).toFloat + shift) height

/-- The corner `k` of the base, counted around it. -/
def baseIndex (n k : Nat) : Nat :=
  k % (2 * n)

/-- The corner `i` of the top, counted around it. -/
def topIndex (n i : Nat) : Nat :=
  2 * n + i % n

def cupolaFaces (n : Nat) : Surface :=
  let b := baseIndex n
  let t := topIndex n
  [downward 0 (2 * n), upward (2 * n) n] ++
    (List.range n).flatMap fun i =>
      [ [b (2 * i), b (2 * i + 1), t i],
        [b (2 * i + 1), b (2 * i + 2), t (i + 1), t i] ]

/-- Triangles and squares in turn around the top.  From three to five sides
all edges have unit length. -/
def cupola (n : Nat) : Solid :=
  let height :=
    if 3 ≤ n ∧ n ≤ 5 then (1 - 1 / (4 * square (pi / n.toFloat).sin)).sqrt
    else circumradius (2 * n) - circumradius n
  { vertices := cupolaBase n ++ cupolaTop n (pi / n.toFloat / 2) height
    faces := cupolaFaces n }

def anticupolaFaces (n : Nat) : Surface :=
  let b := baseIndex n
  let t := topIndex n
  [downward 0 (2 * n), upward (2 * n) n] ++
    (List.range n).flatMap fun i =>
      [ [b (2 * i), b (2 * i + 1), t i],
        [b (2 * i + 1), b (2 * i + 2), t (i + 1)],
        [b (2 * i + 1), t (i + 1), t i] ]

/-- Triangles only around the top, which stands over every other corner of
the base. -/
def anticupola (n : Nat) : Solid :=
  { vertices := cupolaBase n ++ cupolaTop n 0 1, faces := anticupolaFaces n }

end Ring

end Polyhedra
