import Polyhedra.Mesh.Basic

/-!
# Attributes computed from the geometry

The normal of a face is the normalised sum of the cross products at its
corners, which stays stable when the corners are not quite in one plane.  A
vertex takes the normalised sum of the normals of the faces around it, added
in the order of the faces.
-/

namespace Polyhedra

namespace Mesh

/-- The mean of the corners; the origin for a face without corners. -/
def faceCenter (mesh : Mesh) (face : Face) : Point :=
  Point.sum (face.map mesh.position) / (max face.length 1).toFloat

/-- The unit normal, or the origin for a degenerate face. -/
def faceNormal (mesh : Mesh) (face : Face) : Point :=
  let points := face.map mesh.position
  let next := Face.successors points
  let afterNext := Face.successors next
  let turns :=
    (points.zip (next.zip afterNext)).map fun (a, b, c) =>
      (b - a).cross (c - b)
  (Point.sum turns).directionOrOrigin

def centers (mesh : Mesh) : List Point :=
  mesh.faces.map mesh.faceCenter

def normals (mesh : Mesh) : List Point :=
  mesh.faces.map mesh.faceNormal

def colors (mesh : Mesh) : List Color :=
  mesh.faces.map fun face => Color.ofSides face.length

/-- For every vertex the sum of the normals of the faces around it. -/
def normalSums (mesh : Mesh) : Array Point :=
  (mesh.faces.zip mesh.normals).foldl (fun sums (face, normal) =>
      face.foldl (fun sums v => sums.modify v (· + normal)) sums)
    (Array.replicate mesh.vertexCount Point.origin)

/-- The mean normal of every vertex; the origin for a vertex outside every
face. -/
def vertexNormals (mesh : Mesh) : List Point :=
  mesh.normalSums.toList.map Point.directionOrOrigin

def attributes (mesh : Mesh) : Attributes where
  centers := mesh.centers
  normals := mesh.normals
  colors := mesh.colors
  vertexNormals := mesh.vertexNormals

/-- Stores freshly computed attributes. -/
def refresh (mesh : Mesh) : Except MeshError Mesh := do
  mesh.requireInRange
  pure { mesh with attributes? := some mesh.attributes }

@[simp] theorem length_centers (mesh : Mesh) :
    mesh.centers.length = mesh.faceCount := by
  simp [centers, faceCount]

@[simp] theorem length_normals (mesh : Mesh) :
    mesh.normals.length = mesh.faceCount := by
  simp [normals, faceCount]

end Mesh

end Polyhedra
