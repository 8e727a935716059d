import Polyhedra.Flag.IndexKey
import Polyhedra.Flag.System

/-!
# Assemblers

An assembler is a flag system together with polygons that are given outright
as cycles of vertex keys.  A polygon is accepted only when all its keys are
registered; registered keys are never removed, so every accepted polygon can
be numbered at the end.  Its face follows those that are walked.
-/

namespace Polyhedra

structure Assembler (F K : Type) [Ord F] [Ord K] where
  system : FlagSystem F K
  polygons : Array (List K) := #[]

namespace Assembler

variable {F K : Type} [Ord F] [Ord K] [Std.TransOrd F] [Std.TransOrd K]

instance : EmptyCollection (Assembler F K) := ⟨{ system := ∅ }⟩

def setVertex (assembler : Assembler F K) (key : K) (position : Point) :
    Assembler F K :=
  { assembler with system := assembler.system.setVertex key position }

def setFlag (assembler : Assembler F K) (flag : Flag F K) : Assembler F K :=
  { assembler with system := assembler.system.setFlag flag }

/-- Appends a polygon, or reports its first key that is not registered. -/
def addPolygon [ToString K] (assembler : Assembler F K) (keys : List K) :
    Except MeshError (Assembler F K) :=
  match keys.find? fun key => !assembler.system.positions.contains key with
  | some key => .error (.undefinedVertex (toString key))
  | none => .ok { assembler with polygons := assembler.polygons.push keys }

def position? (assembler : Assembler F K) (key : K) : Option Point :=
  assembler.system.position? key

def vertexCount (assembler : Assembler F K) : Nat :=
  assembler.system.vertexCount

def faceCount (assembler : Assembler F K) : Nat :=
  assembler.system.faceCount + assembler.polygons.size

variable [DecidableEq K]

/-- The walked faces in ascending order of their keys, then the polygons in
the order in which they were accepted. -/
def solid (assembler : Assembler F K) : Except (FlagFault F K) Solid := do
  let walked ← assembler.system.resolve
  let polygons :=
    assembler.polygons.toList.map (Face.ofKeys assembler.system.ranks)
  pure { walked with faces := walked.faces ++ polygons }

def resolve [ToString F] [ToString K] (assembler : Assembler F K)
    (name : String) : Except MeshError Mesh := do
  let solid ← assembler.solid.mapError FlagFault.toMeshError
  pure (solid.named name)

/-- Registers every vertex of a mesh under its own index. -/
def addVertices (assembler : Assembler F IndexKey) (mesh : Mesh) :
    Assembler F IndexKey :=
  mesh.indexedVertices.foldl
    (fun assembler (p, v) => assembler.setVertex (.single v) p) assembler

end Assembler

end Polyhedra
