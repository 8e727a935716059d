import Polyhedra.Mesh.Basic
import Polyhedra.Operator.Dual

/-!
# Platonic solids

Tetrahedron and cube are given by their faces.  The faces of the octahedron
and of the icosahedron are all triangles between vertices at the shortest
distance, turned outward.  The dodecahedron is the dual of the icosahedron,
moved back to the unit sphere.
-/

namespace Polyhedra

namespace Platonic

def tetrahedron : Solid where
  vertices :=
    [⟨1, 1, 1⟩, ⟨1, -1, -1⟩, ⟨-1, 1, -1⟩, ⟨-1, -1, 1⟩].map Point.direction
  faces := [[0, 1, 2], [0, 2, 3], [0, 3, 1], [1, 3, 2]]

def cube : Solid where
  vertices :=
    [ ⟨-1, -1, -1⟩, ⟨1, -1, -1⟩, ⟨1, 1, -1⟩, ⟨-1, 1, -1⟩,
      ⟨-1, -1, 1⟩, ⟨1, -1, 1⟩, ⟨1, 1, 1⟩, ⟨-1, 1, 1⟩ ].map Point.direction
  faces :=
    [[0, 3, 2, 1], [4, 5, 6, 7], [0, 1, 5, 4], [1, 2, 6, 5], [2, 3, 7, 6],
      [3, 0, 4, 7]]

/-- The pairs of a list in order, earlier element first. -/
def pairs {α : Type} : List α → List (α × α)
  | [] => []
  | a :: rest => rest.map (fun b => (a, b)) ++ pairs rest

/-- The triples of a list in order, earlier elements first. -/
def triplesOf {α : Type} : List α → List (α × α × α)
  | [] => []
  | a :: rest => (pairs rest).map (fun (b, c) => (a, b, c)) ++ triplesOf rest

def infinity : Float := 1 / 0

/-- The shortest distance between two of the points. -/
def shortestDistance (points : List Point) : Float :=
  (pairs points).foldl (fun shortest (p, q) =>
    if p.distance q < shortest then p.distance q else shortest) infinity

/-- Every triangle whose three sides have the shortest distance,
counter-clockwise seen from outside.  This gives the faces of a solid around
the origin whose faces are all triangles with equal sides. -/
def trianglesAtShortestDistance (points : List Point) : Surface :=
  let side := shortestDistance points
  let adjacent := fun (p q : Point) => nearlyEqual (p.distance q) side
  (triplesOf points.zipIdx).filterMap fun ((p, i), (q, j), (r, k)) =>
    if adjacent p q && adjacent p r && adjacent q r then
      some
        (if ((q - p).cross (r - p)).dot p > 0 then [i, j, k] else [i, k, j])
    else none

def octahedron : Solid :=
  let vertices : List Point :=
    [⟨1, 0, 0⟩, ⟨-1, 0, 0⟩, ⟨0, 1, 0⟩, ⟨0, -1, 0⟩, ⟨0, 0, 1⟩, ⟨0, 0, -1⟩]
  { vertices, faces := trianglesAtShortestDistance vertices }

def icosahedron : Solid :=
  let golden : Float := (1 + Float.sqrt 5) / 2
  let rectangles : List Point :=
    [-1, 1].flatMap fun a => [-golden, golden].flatMap fun b =>
      [⟨0, a, b⟩, ⟨a, b, 0⟩, ⟨b, 0, a⟩]
  let vertices := rectangles.map Point.direction
  { vertices, faces := trianglesAtShortestDistance vertices }

def dodecahedron : Except MeshError Solid := do
  let dual ← (icosahedron.named "I").dual
  pure
    { vertices := dual.vertices.toList.map Point.direction,
      faces := dual.faces }

end Platonic

end Polyhedra
