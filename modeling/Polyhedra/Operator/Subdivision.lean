import Polyhedra.Decimal.Shortest
import Polyhedra.Geometry.Welding
import Polyhedra.Mesh.Basic

/-!
# Triangular subdivision

Every triangle is cut into `n * n` triangles along a barycentric lattice.
The lattice point `(i, j)` lies `i` steps toward the second corner and `j`
steps toward the third, with `i + j ≤ n`.  Points on an edge are made once
for each triangle on it and welded together.
-/

namespace Polyhedra

namespace Subdivision

/-- The lattice points in the order in which they are made. -/
def lattice (n : Nat) : List (List (Nat × Nat)) :=
  (List.range (n + 1)).map fun i => (List.range (n + 1 - i)).map fun j =>
    (i, j)

/-- The small triangles: one with every lattice point below the long side as
its first corner, followed by the one across its edge, unless the point lies
on the side from the first corner to the third. -/
def triangles (n : Nat) : List (List (Nat × Nat)) :=
  (List.range n).flatMap fun i => (List.range (n - i)).flatMap fun j =>
    [(i, j), (i + 1, j), (i, j + 1)] ::
      if 0 < i then [[(i, j), (i, j + 1), (i - 1, j + 1)]] else []

/-- The position of a lattice point in the triangle `a b c`. -/
def latticePoint (n : Nat) (a b c : Point) (i j : Nat) : Point :=
  a + (b - a) * (i.toFloat / n.toFloat) + (c - a) * (j.toFloat / n.toFloat)

/-- The welded indices of the lattice points of one triangle, row by row. -/
def weldLattice (n : Nat) (a b c : Point) :
    StateM WeldingGrid (List (List Nat)) :=
  (lattice n).mapM fun row => row.mapM fun (i, j) =>
    WeldingGrid.weld (latticePoint n a b c i j)

/-- The small triangles of one triangle, as faces. -/
def subdivideFace (mesh : Mesh) (n : Nat) (face : Face) :
    StateM WeldingGrid (List Face) := do
  let corner := fun k => mesh.position (face.getD k 0)
  let rows ← weldLattice n (corner 0) (corner 1) (corner 2)
  let table := (rows.map List.toArray).toArray
  let index := fun (i, j) => (table.getD i #[]).getD j 0
  pure ((triangles n).map fun triangle => triangle.map index)

end Subdivision

namespace Mesh

/-- Cuts every triangle of a triangulated mesh into `n * n` triangles. -/
def subdivideTriangles (mesh : Mesh) (n : Nat) (tolerance : Float) : Mesh :=
  let (faces, grid) :=
    (mesh.faces.mapM (Subdivision.subdivideFace mesh n)).run
      (.empty tolerance)
  { name := s!"u{n}" ++ mesh.name, vertices := grid.points,
    faces := faces.flatten }

/-- Subdivision by `factor`.  The parameters are checked first; a mesh with
another face than triangles is left as it is. -/
def subdivide (mesh : Mesh) (factor : Nat) (tolerance : Float)
    (maxFactor : Nat) : Except MeshError Mesh :=
  if factor = 0 ∨ maxFactor < factor then
    .error (.invalidParameter "trisub"
      s!"factor {factor} outside 1..={maxFactor}")
  else if !(tolerance > 0) then
    .error (.invalidParameter "trisub"
      ("merge tolerance must be positive, got " ++ shortestText tolerance))
  else if ¬ mesh.faces.Triangular then
    .ok mesh
  else do
    mesh.requireInRange
    pure (mesh.subdivideTriangles factor tolerance)

end Mesh

end Polyhedra
