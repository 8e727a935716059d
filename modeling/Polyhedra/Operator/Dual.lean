import Polyhedra.Flag.Blueprint
import Polyhedra.Mesh.Attributes
import Polyhedra.Operator.Word
import Polyhedra.Surface.Closure

/-!
# The dual

Every face becomes a vertex at its centre and every vertex becomes a face,
whose corners are the faces around the vertex.  At the vertex `a` the face
that owns the edge from `b` to `a` is followed by the face that owns the edge
from `a` to `b`.
-/

namespace Polyhedra

namespace Surface

/-- Of several faces with the same directed edge the last one owns it. -/
def lastOwners (surface : Surface) : EdgeOwners :=
  .ofList surface.ownedEdges Edge.order

/-- The flag of the dual for an edge of the face `i`: around the tail of the
edge the face on its other side is followed by `i`. -/
def dualFlag (owners : EdgeOwners) (edge : Edge) (i : Nat) :
    Except ClosureFault (Flag IndexKey IndexKey) :=
  match owners[edge.swap]? with
  | none => .error (.unpairedEdge edge.1 edge.2 i)
  | some neighbor => .ok ⟨.single edge.1, .single neighbor, .single i⟩

/-- The flags of the dual, or the first edge whose reverse belongs to no
face. -/
def dualFlags (surface : Surface) :
    Except ClosureFault (List (Flag IndexKey IndexKey)) :=
  let owners := surface.lastOwners
  surface.ownedEdges.mapM fun (edge, i) => dualFlag owners edge i

end Surface

namespace Mesh

def dualSites (mesh : Mesh) : List (IndexKey × Point) :=
  mesh.centers.zipIdx.map fun (center, i) => (.single i, center)

def dual (mesh : Mesh) : Except MeshError Mesh := do
  mesh.requireInRange
  let flags ← mesh.faces.dualFlags.mapError ClosureFault.toMeshError
  let blueprint : Blueprint IndexKey IndexKey :=
    { sites := mesh.dualSites, flags }
  blueprint.build (Word.dual mesh.name)

end Mesh

end Polyhedra
