import Polyhedra.Geometry.Color
import Polyhedra.Geometry.Point
import Polyhedra.Mesh.Error
import Polyhedra.Surface.Count

/-!
# Meshes

A polyhedron as vertex positions and faces that index into them, together
with the word of operators that built it.  Nothing forces the corners of a
face into the vertex list: `Mesh.InRange` says that they are there, and what
needs positions refuses a mesh that is not in range.
-/

namespace Polyhedra

/-- Vertex positions and faces, without a name. -/
structure Solid where
  vertices : List Point
  faces : Surface

/-- What is computed from the geometry: centre, unit normal and color of
every face, and the mean normal of every vertex. -/
structure Attributes where
  centers : List Point
  normals : List Point
  colors : List Color
  vertexNormals : List Point
deriving BEq

structure Mesh where
  name : String
  vertices : Array Point
  faces : Surface
  /-- The attributes stored by the last refresh. -/
  attributes? : Option Attributes := none
deriving BEq

def Solid.named (solid : Solid) (name : String) : Mesh where
  name := name
  vertices := solid.vertices.toArray
  faces := solid.faces

namespace Mesh

def empty : Mesh where
  name := ""
  vertices := #[]
  faces := []

def vertexCount (mesh : Mesh) : Nat :=
  mesh.vertices.size

def faceCount (mesh : Mesh) : Nat :=
  mesh.faces.length

def edgeCount (mesh : Mesh) : Nat :=
  mesh.faces.edgeCount

/-- Vertices minus edges plus faces. -/
def eulerCharacteristic (mesh : Mesh) : Int :=
  mesh.vertexCount - mesh.edgeCount + mesh.faceCount

def rename (mesh : Mesh) (name : String) : Mesh :=
  { mesh with name }

/-- Every corner of every face is the index of a vertex. -/
def InRange (mesh : Mesh) : Prop :=
  mesh.faces.InRange mesh.vertexCount

instance (mesh : Mesh) : Decidable mesh.InRange :=
  inferInstanceAs (Decidable (mesh.faces.InRange mesh.vertexCount))

def requireInRange (mesh : Mesh) : Except MeshError Unit :=
  if mesh.InRange then .ok () else .error .cornerOutOfRange

theorem requireInRange_eq_ok_iff {mesh : Mesh} :
    mesh.requireInRange = .ok () ↔ mesh.InRange := by
  unfold requireInRange
  split <;> simp_all

/-- A quantity that needs the positions of all corners. -/
def measure? {α : Type} (mesh : Mesh) (quantity : Mesh → α) : Option α :=
  if mesh.InRange then some (quantity mesh) else none

/-- The position of a vertex; the origin for an index outside the vertex
list. -/
def position (mesh : Mesh) (v : Nat) : Point :=
  mesh.vertices.getD v .origin

/-- The positions of the corners of the face `i`, if there is such a face and
its corners are vertices. -/
def facePoints? (mesh : Mesh) (i : Nat) : Option (List Point) := do
  let face ← mesh.faces[i]?
  face.mapM fun v => mesh.vertices[v]?

/-- The vertex positions with their indices. -/
def indexedVertices (mesh : Mesh) : List (Point × Nat) :=
  mesh.vertices.toList.zipIdx

/-- Number of faces that pass a filter on the number of sides. -/
def selectedCount (mesh : Mesh) (sides : Nat) : Nat :=
  (mesh.faces.selected sides).length

/-- Number of vertices that a truncation with a filter on the degree would
cut. -/
def cutCount (mesh : Mesh) (sides : Nat) : Nat :=
  mesh.faces.cutCount mesh.vertexCount sides

end Mesh

end Polyhedra
