/-!
# Why a mesh could not be built

Each constructor is one cause; `MeshError.message` is its wording.
-/

namespace Polyhedra

inductive MeshError where
  /-- The flags of a face do not form one closed directed cycle. -/
  | inconsistentFace (face explanation : String)
  /-- A flag or a polygon names a vertex that was never registered. -/
  | undefinedVertex (key : String)
  /-- A parameter of an operator or a seed is outside its range. -/
  | invalidParameter (subject explanation : String)
  | unsupportedSeed (seed : String)
  /-- A directed edge is repeated or has no partner. -/
  | notClosed (explanation : String)
  /-- A corner of a face names a vertex outside the vertex list. -/
  | cornerOutOfRange
deriving DecidableEq

def MeshError.message : MeshError → String
  | .inconsistentFace face explanation =>
    "Inconsistent topology in face " ++ face ++ ": " ++ explanation
  | .undefinedVertex key => "Undefined vertex key: " ++ key
  | .invalidParameter subject explanation =>
    "Invalid parameter for '" ++ subject ++ "': " ++ explanation
  | .unsupportedSeed seed => "Unsupported seed: " ++ seed
  | .notClosed explanation =>
      "Mesh is not a closed manifold: " ++ explanation
  | .cornerOutOfRange => "A face has a corner outside the vertex list"

end Polyhedra
