import Polyhedra.Flag.Basic
import Polyhedra.Flag.Walk
import Polyhedra.Mesh.Basic

/-!
# Flag systems

A construction on polyhedra declares its vertices with their positions and
the flags of its faces, in any order.  A flag system keeps the last position
of every vertex and the last head of every face and tail.  Resolution numbers
the vertices in ascending order of their keys and walks around every face, in
ascending order of face keys.
-/

namespace Polyhedra

/-- The first face that was refused, with the reason. -/
structure FlagFault (F K : Type) where
  face : F
  fault : FaceFault K
deriving DecidableEq

def FlagFault.toMeshError {F K : Type} [ToString F] [ToString K]
    (fault : FlagFault F K) : MeshError :=
  fault.fault.toMeshError (toString fault.face)

/-- One step of a construction. -/
inductive Declaration (F K : Type) where
  | vertex (key : K) (position : Point)
  | flag (flag : Flag F K)

structure FlagSystem (F K : Type) [Ord F] [Ord K] where
  positions : Std.ExtTreeMap K Point
  faces : Std.ExtTreeMap F (FaceFlags K)

/-- A cycle of keys as a cycle of their ranks. -/
def Face.ofKeys {K : Type} [Ord K] [Std.TransOrd K]
    (ranks : Std.ExtTreeMap K Nat) (keys : List K) : Face :=
  keys.map fun key => ranks.getD key 0

namespace FlagSystem

variable {F K : Type} [Ord F] [Ord K] [Std.TransOrd F] [Std.TransOrd K]

def empty : FlagSystem F K where
  positions := ∅
  faces := ∅

instance : EmptyCollection (FlagSystem F K) := ⟨empty⟩

/-- Registers a vertex, or moves it if its key is registered. -/
def setVertex (system : FlagSystem F K) (key : K) (position : Point) :
    FlagSystem F K :=
  { system with positions := system.positions.insert key position }

/-- Declares a flag; it replaces the flag with the same face and tail. -/
def setFlag (system : FlagSystem F K) (flag : Flag F K) : FlagSystem F K :=
  let flags := system.faces.getD flag.face ∅
  { system with
    faces :=
      system.faces.insert flag.face (flags.insert flag.tail flag.head) }

def declare (system : FlagSystem F K) : Declaration F K → FlagSystem F K
  | .vertex key position => system.setVertex key position
  | .flag flag => system.setFlag flag

def ofDeclarations (declarations : List (Declaration F K)) :
    FlagSystem F K :=
  declarations.foldl declare ∅

/-- The position registered under a key. -/
def position? (system : FlagSystem F K) (key : K) : Option Point :=
  system.positions[key]?

/-- The head declared for a face and a tail. -/
def head? (system : FlagSystem F K) (face : F) (tail : K) : Option K :=
  system.faces[face]?.bind fun flags => flags[tail]?

def vertexCount (system : FlagSystem F K) : Nat :=
  system.positions.size

def faceCount (system : FlagSystem F K) : Nat :=
  system.faces.size

/-- Every registered key with its place in ascending order. -/
def ranks (system : FlagSystem F K) : Std.ExtTreeMap K Nat :=
  Std.ExtTreeMap.ofList system.positions.keys.zipIdx

theorem position?_setFlag (system : FlagSystem F K) (flag : Flag F K)
    (k : K) :
    (system.setFlag flag).position? k = system.position? k :=
  rfl

theorem head?_setVertex (system : FlagSystem F K) (key : K)
    (position : Point) (f : F) (k : K) :
    (system.setVertex key position).head? f k = system.head? f k :=
  rfl

variable [DecidableEq K]

omit [Std.TransOrd F] in
theorem position?_setVertex [Std.LawfulEqOrd K] (system : FlagSystem F K)
    (key k : K) (position : Point) :
    (system.setVertex key position).position? k = if key = k
      then some position else system.position? k := by
  simp [setVertex, position?, Std.ExtTreeMap.getElem?_insert]

theorem head?_setFlag [Std.LawfulEqOrd F] [Std.LawfulEqOrd K] [DecidableEq F]
    (system : FlagSystem F K) (flag : Flag F K) (f : F) (k : K) :
    (system.setFlag flag).head? f k = if flag.face = f ∧ flag.tail = k
      then some flag.head else system.head? f k := by
  unfold setFlag head?
  by_cases hface : flag.face = f
  · subst hface
    cases hflags : system.faces[flag.face]? <;>
      simp [Std.ExtTreeMap.getElem?_insert,
        Std.ExtTreeMap.getD_eq_getD_getElem?, hflags]
  · simp [Std.ExtTreeMap.getElem?_insert, hface]

/-- The walk around one face. -/
def walk (system : FlagSystem F K) (face : F) (flags : FaceFlags K) :
    Except (FlagFault F K) (List K) :=
  (flags.walk system.positions.contains).mapError fun fault => ⟨face, fault⟩

/-- The walks around all faces in ascending order of face keys, or the first
fault. -/
def cycles (system : FlagSystem F K) :
    Except (FlagFault F K) (List (List K)) :=
  system.faces.toList.mapM fun (face, flags) => system.walk face flags

/-- The positions in order of index, and the faces as cycles of indices. -/
def resolve (system : FlagSystem F K) : Except (FlagFault F K) Solid := do
  let cycles ← system.cycles
  pure
    { vertices := system.positions.values
      faces := cycles.map (Face.ofKeys system.ranks) }

end FlagSystem

end Polyhedra
