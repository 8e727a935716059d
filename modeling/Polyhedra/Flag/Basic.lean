import Polyhedra.Surface.Face

/-!
# Flags

A flag says that a face has a directed edge from one symbolic vertex to
another.  Faces and vertices are named by keys, which need not be of one
type.
-/

namespace Polyhedra

/-- The face `face` has the directed edge from `tail` to `head`. -/
structure Flag (F K : Type) where
  face : F
  tail : K
  head : K
deriving DecidableEq

namespace Flag

variable {F K G L : Type}

/-- One flag for every two neighbouring keys. -/
def along (face : F) (keys : List K) : List (Flag F K) :=
  (keys.zip (keys.drop 1)).map fun (tail, head) => ⟨face, tail, head⟩

/-- One flag for every key and the next one, the first coming after the
last. -/
def around (face : F) (keys : List K) : List (Flag F K) :=
  (keys.zip (Face.successors keys)).map fun (tail, head) =>
    ⟨face, tail, head⟩

/-- The same flag under other keys. -/
def map (onFace : F → G) (onKey : K → L) (flag : Flag F K) : Flag G L :=
  ⟨onFace flag.face, onKey flag.tail, onKey flag.head⟩

@[simp] theorem length_around (face : F) (keys : List K) :
    (around face keys).length = keys.length := by
  simp [around]

end Flag

end Polyhedra
