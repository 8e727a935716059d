import Polyhedra.Flag.Label
import Polyhedra.Mesh.Attributes

/-!
# Constructions on edge midpoints

Ambo keeps only the midpoints of the edges; quinto sets a pentagon at every
corner of every face; the first Perspectiva construction puts two triangles
in place of every edge.
-/

namespace Polyhedra

namespace Surface

/-- The faces shrunk to their edge midpoints, and the faces that replace the
vertices. -/
def amboFlags (surface : Surface) : List (Flag IndexKey IndexKey) :=
  surface.indexed.flatMap fun (face, i) =>
    face.triples.flatMap fun (a, b, c) =>
    [ ⟨.single i, .edge a b, .edge b c⟩,
      ⟨.single (surface.length + b), .edge b c, .edge a b⟩ ]

def quintoFlags (surface : Surface) : List (Flag IndexKey IndexKey) :=
  surface.indexed.flatMap fun (face, i) =>
    face.triples.flatMap fun (a, b, c) =>
    Flag.around (.pair i b)
        [.side i a b, .edge a b, .single b, .edge b c, .side i b c] ++
      [⟨.single i, .side i a b, .side i b c⟩]

def perspectivaFlags (surface : Surface) : List (Flag FaceRole VertexRole) :=
  surface.indexed.flatMap fun (face, i) =>
    face.triples.flatMap fun (a, b, c) =>
    [⟨.copy i, .stellated a b, .stellated b c⟩] ++
      Flag.around (.corner i b)
        [.stellated b c, .stellated a b, .corner b] ++
      Flag.around (.edge a b) [.corner a, .stellated b a, .stellated a b]

end Surface

namespace Mesh

def edgeMidpoint (mesh : Mesh) (a b : Nat) : Point :=
  (mesh.position a).midpoint (mesh.position b)

def amboSites (mesh : Mesh) : List (IndexKey × Point) :=
  mesh.faces.flatMap fun face =>
    face.triples.map fun (a, b, _) => (.edge a b, mesh.edgeMidpoint a b)

/-- A vertex for every edge, a face for every face and every vertex. -/
def ambo (mesh : Mesh) : Except MeshError Mesh := do
  mesh.requireInRange
  let blueprint : Blueprint IndexKey IndexKey :=
    { sites := mesh.amboSites, flags := mesh.faces.amboFlags }
  blueprint.build ("a" ++ mesh.name)

def quintoSites (mesh : Mesh) : List (IndexKey × Point) :=
  mesh.faces.indexed.flatMap fun (face, i) =>
    let center := mesh.faceCenter face
    face.triples.flatMap fun (a, b, _) =>
      let middle := mesh.edgeMidpoint a b
      [(.edge a b, middle), (.side i a b, middle.midpoint center),
        (.single b, mesh.position b)]

/-- A pentagon at every corner of every face, and a smaller copy of every
face. -/
def quinto (mesh : Mesh) : Except MeshError Mesh := do
  mesh.requireInRange
  let blueprint : Blueprint IndexKey IndexKey :=
    { sites := mesh.quintoSites, flags := mesh.faces.quintoFlags }
  blueprint.build ("q" ++ mesh.name)

/-- The vertices of a mesh in the role of corners. -/
def cornerSites (mesh : Mesh) : List (VertexRole × Point) :=
  mesh.indexedVertices.map fun (p, v) => (.corner v, p)

def stellatedSites (mesh : Mesh) : List (VertexRole × Point) :=
  mesh.faces.flatMap fun face =>
    let center := mesh.faceCenter face
    face.triples.map fun (a, b, _) =>
      (.stellated a b, (mesh.edgeMidpoint a b).midpoint center)

/-- A smaller copy of every face, a triangle at every corner, and two
triangles for every edge. -/
def perspectiva (mesh : Mesh) : Except MeshError Mesh := do
  mesh.requireInRange
  let blueprint : Blueprint FaceRole VertexRole :=
    { sites := mesh.cornerSites ++ mesh.stellatedSites,
      flags := mesh.faces.perspectivaFlags }
  blueprint.buildLabelled ("P" ++ mesh.name)

end Mesh

end Polyhedra
