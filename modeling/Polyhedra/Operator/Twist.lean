import Polyhedra.Flag.Label
import Polyhedra.Mesh.Attributes

/-!
# Twisting constructions

Gyro, propellor and whirl place a point one third of the way along every
directed edge.  The two points on an edge differ, so the results are chiral.
Input vertices move to the unit sphere.
-/

namespace Polyhedra

namespace Surface

def gyroFlags (surface : Surface) : List (Flag FaceRole VertexRole) :=
  surface.indexed.flatMap fun (face, i) =>
    face.triples.flatMap fun (a, b, c) =>
    Flag.around (.ring i a)
      [.center i, .third a b, .third b a, .corner b, .third b c]

def propellorFlags (surface : Surface) : List (Flag FaceRole VertexRole) :=
  surface.indexed.flatMap fun (face, i) =>
    face.triples.flatMap fun (a, b, c) =>
    [⟨.copy i, .third a b, .third b c⟩] ++
      Flag.around (.ring i b) [.third a b, .third b a, .corner b, .third b c]

def whirlFlags (surface : Surface) : List (Flag FaceRole VertexRole) :=
  surface.indexed.flatMap fun (face, i) =>
    face.triples.flatMap fun (a, b, c) =>
    Flag.around (.ring i a) [.inner i a, .third a b, .third b a, .corner b,
      .third b c, .inner i b] ++ [⟨.copy i, .inner i a, .inner i b⟩]

end Surface

namespace Mesh

/-- The vertices of a mesh in the role of corners, moved to the unit
sphere. -/
def unitCornerSites (mesh : Mesh) : List (VertexRole × Point) :=
  mesh.indexedVertices.map fun (p, v) => (.corner v, p.directionOrOrigin)

/-- The point one third of the way from `a` to `b`. -/
def edgeThird (mesh : Mesh) (a b : Nat) : Point :=
  (mesh.position a).oneThird (mesh.position b)

def thirdSites (mesh : Mesh) : List (VertexRole × Point) :=
  mesh.faces.flatMap fun face => face.triples.map fun (a, b, _) =>
    (.third a b, mesh.edgeThird a b)

def centerSites (mesh : Mesh) : List (VertexRole × Point) :=
  mesh.centers.zipIdx.map fun (center, i) =>
    (.center i, center.directionOrOrigin)

/-- The point of every face near the tail of every one of its edges. -/
def innerSites (mesh : Mesh) : List (VertexRole × Point) :=
  mesh.faces.indexed.flatMap fun (face, i) =>
    let center := mesh.faceCenter face
    face.triples.map fun (a, b, _) =>
      (.inner i a, (center.oneThird (mesh.edgeThird a b)).directionOrOrigin)

/-- A pentagon for every corner of every face, around a new vertex in the
middle of the face. -/
def gyro (mesh : Mesh) : Except MeshError Mesh := do
  mesh.requireInRange
  let blueprint : Blueprint FaceRole VertexRole :=
    { sites := mesh.unitCornerSites ++ mesh.centerSites ++ mesh.thirdSites
      flags := mesh.faces.gyroFlags }
  blueprint.buildLabelled ("g" ++ mesh.name)

/-- A turned copy of every face, inside a ring of quadrilaterals. -/
def propellor (mesh : Mesh) : Except MeshError Mesh := do
  mesh.requireInRange
  let blueprint : Blueprint FaceRole VertexRole :=
    { sites := mesh.unitCornerSites ++ mesh.thirdSites,
      flags := mesh.faces.propellorFlags }
  blueprint.buildLabelled ("p" ++ mesh.name)

/-- Two hexagons for every edge, and a turned copy of every face. -/
def whirl (mesh : Mesh) : Except MeshError Mesh := do
  mesh.requireInRange
  let blueprint : Blueprint FaceRole VertexRole :=
    { sites := mesh.unitCornerSites ++ mesh.thirdSites ++ mesh.innerSites
      flags := mesh.faces.whirlFlags }
  blueprint.buildLabelled ("w" ++ mesh.name)

end Mesh

end Polyhedra
