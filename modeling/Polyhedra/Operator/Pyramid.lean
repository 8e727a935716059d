import Polyhedra.Flag.Blueprint
import Polyhedra.Mesh.Attributes
import Polyhedra.Operator.Dual

/-!
# Kis and truncation

Kis raises a pyramid on every selected face and keeps the others.  The apex
over the face `i` is registered past the input vertices, so input vertices
keep their indices.  Truncation is kis carried out on the dual.
-/

namespace Polyhedra

/-- The key of the apex over the face `i` of a mesh with `count` vertices. -/
def IndexKey.apex (count i : Nat) : IndexKey :=
  single (count + i)

namespace Surface

/-- A triangle from every edge of a selected face to the apex. -/
def kisFlags (surface : Surface) (count sides : Nat) :
    List (Flag IndexKey IndexKey) :=
  surface.indexed.flatMap fun (face, i) =>
    if Face.passes sides face.length then
      face.arrivals.flatMap fun (a, b) =>
        Flag.around (.pair i a) [.single a, .single b, .apex count i]
    else []

/-- The faces that are kept. -/
def kisPolygons (surface : Surface) (sides : Nat) : List (List IndexKey) :=
  (surface.filter fun face => !Face.passes sides face.length).map
    (List.map IndexKey.single)

end Surface

namespace Mesh

/-- The vertices of a mesh under their own indices. -/
def indexSites (mesh : Mesh) : List (IndexKey × Point) :=
  mesh.indexedVertices.map fun (p, v) => (.single v, p)

/-- The apexes, at the given height over the centres of the selected
faces. -/
def apexSites (mesh : Mesh) (sides : Nat) (height : Float) :
    List (IndexKey × Point) :=
  (mesh.faces.indexed.filter fun (face, _) =>
    Face.passes sides face.length).map fun (face, i) =>
    (.apex mesh.vertexCount i,
      mesh.faceCenter face + mesh.faceNormal face * height)

/-- A pyramid on every face that passes the filter. -/
def kis (mesh : Mesh) (sides : Nat) (height : Float) :
    Except MeshError Mesh := do
  mesh.requireInRange
  let blueprint : Blueprint IndexKey IndexKey :=
    { sites := mesh.indexSites ++ mesh.apexSites sides height
      flags := mesh.faces.kisFlags mesh.vertexCount sides
      polygons := mesh.faces.kisPolygons sides }
  blueprint.build (Word.prepend 'k' sides mesh.name)

/-- Cuts off every vertex whose degree passes the filter. -/
def truncate (mesh : Mesh) (sides : Nat) (height : Float) :
    Except MeshError Mesh := do
  let around ← mesh.dual
  let raised ← around.kis sides height
  let cut ← raised.dual
  pure (cut.rename (Word.prepend 't' sides mesh.name))

end Mesh

end Polyhedra
