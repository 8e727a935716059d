import Polyhedra.Mesh.Attributes

/-!
# Vertex buffers

Flat-shaded buffers in single precision.  Every face with at least three
corners gets its own copies of its corners, one face after another, so that
normal and color are constant on it; it is cut into a fan of triangles around
its first corner.
-/

namespace Polyhedra

/-- `positions` and `normals` hold three numbers for each buffer vertex and
`colors` four; `indices` holds three buffer vertices for each triangle. -/
structure VertexBuffers where
  positions : List Float32
  normals : List Float32
  colors : List Float32
  indices : List Nat
deriving BEq

/-- A face as it enters the buffers. -/
structure Panel where
  corners : List Point
  normal : Point
  color : Color

def Point.toSingle (p : Point) : List Float32 :=
  [p.x.toFloat32, p.y.toFloat32, p.z.toFloat32]

def Color.channels (color : Color) : List Float32 :=
  [color.red, color.green, color.blue, color.alpha]

namespace Panel

def size (panel : Panel) : Nat :=
  panel.corners.length

/-- The triangles around the first of `size` consecutive buffer vertices. -/
def fan (start size : Nat) : List Nat :=
  (List.range (size - 2)).flatMap fun k =>
    [start, start + k + 1, start + k + 2]

/-- The fans of panels that are laid out one after another from the buffer
vertex `start` on. -/
def fans (start : Nat) : List Panel → List Nat
  | [] => []
  | panel :: rest => fan start panel.size ++ fans (start + panel.size) rest

end Panel

namespace VertexBuffers

def ofPanels (panels : List Panel) : VertexBuffers where
  positions :=
    panels.flatMap fun panel => panel.corners.flatMap Point.toSingle
  normals :=
    panels.flatMap fun panel => panel.corners.flatMap fun _ =>
      panel.normal.toSingle
  colors :=
    panels.flatMap fun panel => panel.corners.flatMap fun _ =>
      panel.color.channels
  indices := Panel.fans 0 panels

def vertexCount (buffers : VertexBuffers) : Nat :=
  buffers.positions.length / 3

def triangleCount (buffers : VertexBuffers) : Nat :=
  buffers.indices.length / 3

end VertexBuffers

namespace Mesh

/-- The faces with at least three corners, with the given attributes. -/
def panels (mesh : Mesh) (normals : List Point) (colors : List Color) :
    List Panel :=
  let attributed := mesh.faces.zip (normals.zip colors)
  (attributed.filter fun (face, _) => 3 ≤ face.length).map
    fun (face, normal, color) =>
    ⟨face.map mesh.position, normal, color⟩

/-- Uses the stored attributes if there are any. -/
def vertexBuffers (mesh : Mesh) : Except MeshError VertexBuffers := do
  mesh.requireInRange
  match mesh.attributes? with
  | some stored =>
      pure (.ofPanels (mesh.panels stored.normals stored.colors))
  | none => pure (.ofPanels (mesh.panels mesh.normals mesh.colors))

end Mesh

end Polyhedra
