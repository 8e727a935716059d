import Polyhedra.Operator.Dual
import Polyhedra.Operator.Midpoint
import Polyhedra.Presets

/-!
# Insets and windows

Inset shrinks every selected face toward its centre, moves it along its
normal, and joins the old boundary to the new one by quadrilaterals; extrude
and loft are the two settings with one of the motions left out.  Hollow cuts
a window into every face and gives the shell a thickness.
-/

namespace Polyhedra

namespace Surface

def insetFlags (surface : Surface) (sides : Nat) :
    List (Flag FaceRole VertexRole) :=
  surface.indexed.flatMap fun (face, i) =>
    if Face.passes sides face.length then
      face.arrivals.flatMap fun (a, b) =>
        Flag.around (.ring i a)
            [.corner a, .corner b, .inset i b, .inset i a] ++
          [⟨.raised i, .inset i a, .inset i b⟩]
    else
      face.arrivals.map fun (a, b) => ⟨.kept i, .corner a, .corner b⟩

/-- Three walls at every edge: on the outer shell, inside the window, and on
the inner shell. -/
def hollowFlags (surface : Surface) : List (Flag FaceRole VertexRole) :=
  surface.indexed.flatMap fun (face, i) =>
    face.arrivals.flatMap fun (a, b) =>
    Flag.around (.outer i a)
        [.corner a, .corner b, .window i b, .window i a] ++
      Flag.around (.side i a)
        [.window i a, .window i b, .lowerWindow i b, .lowerWindow i a] ++
      Flag.around (.bottom i a)
        [.lower b, .lower a, .lowerWindow i a, .lowerWindow i b]

end Surface

namespace Mesh

def insetSites (mesh : Mesh) (sides : Nat) (fraction offset : Float) :
    List (VertexRole × Point) :=
  mesh.faces.indexed.flatMap fun (face, i) =>
    if Face.passes sides face.length then
      let center := mesh.faceCenter face
      let normal := mesh.faceNormal face
      face.map fun v => (.inset i v,
        (mesh.position v).tween center fraction + normal * offset)
    else []

/-- Moves every selected face: each corner goes `fraction` of the way to the
centre, and then `offset` along the normal. -/
def moveFaces (mesh : Mesh) (sides : Nat) (fraction offset : Float)
    (name : String) : Except MeshError Mesh := do
  mesh.requireInRange
  let blueprint : Blueprint FaceRole VertexRole :=
    { sites := mesh.cornerSites ++ mesh.insetSites sides fraction offset
      flags := mesh.faces.insetFlags sides }
  blueprint.buildLabelled name

def inset (mesh : Mesh) (sides : Nat) (fraction offset : Float) :
    Except MeshError Mesh :=
  mesh.moveFaces sides fraction offset (Word.prepend 'n' sides mesh.name)

/-- Moves every selected face straight out along its normal. -/
def extrude (mesh : Mesh) (sides : Nat) : Except MeshError Mesh :=
  mesh.moveFaces sides 0 extrudeOffset (Word.prepend 'x' sides mesh.name)

/-- Shrinks every selected face within its plane. -/
def loft (mesh : Mesh) (sides : Nat) (fraction : Float) :
    Except MeshError Mesh :=
  mesh.moveFaces sides fraction 0 (Word.prepend 'l' sides mesh.name)

/-- The outward direction at every vertex: the normal of the dual face around
it when the dual has one face for every vertex, and the mean normal of the
faces around it otherwise. -/
def shellDirections (mesh dual : Mesh) : List Point :=
  if dual.faceCount = mesh.vertexCount then dual.normals
    else mesh.vertexNormals

/-- Every vertex and its copy on the inner shell, `thickness` below in its
direction. -/
def shellSites (mesh : Mesh) (directions : List Point) (thickness : Float) :
    List (VertexRole × Point) :=
  (mesh.vertices.toList.zip directions).zipIdx.flatMap
    fun ((p, direction), v) =>
    [(.corner v, p), (.lower v, p - direction * thickness)]

def windowSites (mesh : Mesh) (fraction thickness : Float) :
    List (VertexRole × Point) :=
  mesh.faces.indexed.flatMap fun (face, i) =>
    let center := mesh.faceCenter face
    let normal := mesh.faceNormal face
    face.flatMap fun v =>
      let corner := (mesh.position v).tween center fraction
      [(.window i v, corner),
        (.lowerWindow i v, corner - normal * thickness)]

/-- Cuts a window into every face and gives the shell a thickness. -/
def hollow (mesh : Mesh) (fraction thickness : Float) :
    Except MeshError Mesh := do
  mesh.requireInRange
  let dual ← mesh.dual
  let directions := mesh.shellDirections dual
  let blueprint : Blueprint FaceRole VertexRole :=
    { sites := mesh.shellSites directions thickness ++
        mesh.windowSites fraction thickness
      flags := mesh.faces.hollowFlags }
  blueprint.buildLabelled ("H" ++ mesh.name)

end Mesh

end Polyhedra
