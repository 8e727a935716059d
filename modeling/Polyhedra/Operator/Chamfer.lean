import Polyhedra.Flag.Blueprint
import Polyhedra.Mesh.Attributes

/-!
# Chamfer

Every edge becomes a hexagon between the shrunk faces on its two sides.
Input vertices move away from the origin, and every face gets its own copies
of its corners, moved along the face normal.
-/

namespace Polyhedra

/-- Both faces of an edge declare their half of its hexagon, from the head of
the edge to its tail. -/
def Surface.chamferFlags (surface : Surface) :
    List (Flag IndexKey IndexKey) :=
  surface.indexed.flatMap fun (face, i) =>
    face.arrivals.flatMap fun (a, b) =>
    [⟨.single i, .pair i a, .pair i b⟩] ++
      Flag.along (.edge a b) [.single b, .pair i b, .pair i a, .single a]

namespace Mesh

def chamferSites (mesh : Mesh) (depth : Float) : List (IndexKey × Point) :=
  mesh.faces.indexed.flatMap fun (face, i) =>
    let normal := mesh.faceNormal face
    face.arrivals.flatMap fun (_, b) =>
      [ (.single b, mesh.position b * (1 + depth)),
        (.pair i b, mesh.position b + normal * (1.5 * depth)) ]

def chamfer (mesh : Mesh) (depth : Float) : Except MeshError Mesh := do
  mesh.requireInRange
  let blueprint : Blueprint IndexKey IndexKey :=
    { sites := mesh.chamferSites depth, flags := mesh.faces.chamferFlags }
  blueprint.build ("c" ++ mesh.name)

end Mesh

end Polyhedra
