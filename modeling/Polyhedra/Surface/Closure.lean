import Polyhedra.Mesh.Error
import Polyhedra.Surface.Basic
import Std.Data.ExtTreeMap

/-!
# Closed oriented surfaces

A surface is closed when every face has at least three corners, no directed
edge occurs twice, and the reverse of every directed edge occurs in another
face.  The check goes through the faces in order and reports the first face
with too few corners or the first repeated edge; only then it looks for an
edge without a partner.
-/

namespace Polyhedra

inductive ClosureFault where
  | tooFewCorners (face count : Nat)
  /-- The directed edge from `tail` to `head` belongs to two faces, or twice
  to one. -/
  | repeatedEdge (tail head first second : Nat)
  | unpairedEdge (tail head face : Nat)
  | bothWays (tail head face : Nat)
deriving DecidableEq

namespace ClosureFault

def explanation : ClosureFault → String
  | tooFewCorners face count => s!"face {face} has {count} vertices"
  | repeatedEdge tail head first second =>
    s!"directed edge {tail} -> {head} appears in faces {first} and {second}"
  | unpairedEdge tail head face =>
      s!"edge {tail} -> {head} of face {face} has no reverse"
  | bothWays tail head face =>
      s!"edge {tail} -> {head} is traversed both ways by face {face}"

def toMeshError (fault : ClosureFault) : MeshError :=
  .notClosed fault.explanation

end ClosureFault

/-- For directed edges the face that they belong to. -/
abbrev EdgeOwners := Std.ExtTreeMap Edge Nat Edge.order

namespace EdgeOwners

/-- Enters a directed edge of the face `index`, unless it is taken. -/
def claim (owners : EdgeOwners) (index : Nat) (edge : Edge) :
    Except ClosureFault EdgeOwners :=
  match owners[edge]? with
  | some other => .error (.repeatedEdge edge.1 edge.2 other index)
  | none => .ok (owners.insert edge index)

/-- Enters all edges of a face with at least three corners. -/
def claimFace (owners : EdgeOwners) (face : Face) (index : Nat) :
    Except ClosureFault EdgeOwners :=
  if face.length < 3 then .error (.tooFewCorners index face.length)
  else face.edges.foldlM (fun owners edge => owners.claim index edge) owners

/-- What is wrong with an edge of the face `index`, once all edges have been
entered. -/
def edgeFault? (owners : EdgeOwners) (index : Nat) (edge : Edge) :
    Option ClosureFault :=
  match owners[edge.swap]? with
  | none => some (.unpairedEdge edge.1 edge.2 index)
  | some other =>
      if other = index then some (.bothWays edge.1 edge.2 index) else none

end EdgeOwners

namespace Surface

/-- The owner of every directed edge, when every face has at least three
corners and no directed edge occurs twice. -/
def edgeOwners (surface : Surface) : Except ClosureFault EdgeOwners :=
  surface.indexed.foldlM
    (fun owners (face, index) => owners.claimFace face index) ∅

/-- The first edge without a partner in another face. -/
def unpairedFault? (surface : Surface) (owners : EdgeOwners) :
    Option ClosureFault :=
  surface.indexed.findSome? fun (face, index) =>
    face.edges.findSome? (owners.edgeFault? index)

def checkClosed (surface : Surface) : Except ClosureFault Unit := do
  let owners ← surface.edgeOwners
  match surface.unpairedFault? owners with
  | some fault => .error fault
  | none => .ok ()

end Surface

end Polyhedra
