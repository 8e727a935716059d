import Polyhedra.Mesh.Error
import Std.Data.ExtTreeMap

/-!
# Walking around a face

The flags of one face send every tail to its head.  They describe a face when
this map is one cycle through all tails.  The walk starts at the smallest
tail and follows the flags until one leads back; it uses each flag at most
once, so an inconsistent face is reported and never followed forever.
-/

namespace Polyhedra

/-- Why the flags of one face are refused. -/
inductive FaceFault (K : Type) where
  | undefinedVertex (key : K)
  | noFlags
  /-- The walk reached a key that no flag of the face leaves. -/
  | deadEnd (key : K)
  /-- The walk used as many flags as the face has without coming back. -/
  | unclosed (count : Nat)
  /-- The walk came back before it had used all flags. -/
  | closedEarly (steps count : Nat)
deriving DecidableEq

def FaceFault.toMeshError {K : Type} [ToString K] (face : String) :
    FaceFault K → MeshError
  | .undefinedVertex key => .undefinedVertex (toString key)
  | .noFlags => .inconsistentFace face "face has no flags"
  | .deadEnd key =>
      .inconsistentFace face ("no flag leaves vertex " ++ toString key)
  | .unclosed count =>
      .inconsistentFace face s!"orbit did not close within {count} flags"
  | .closedEarly steps count =>
    .inconsistentFace face s!"orbit closed after {steps} of {count} flags"

/-- The flags of one face: for every tail its head. -/
abbrev FaceFlags (K : Type) [Ord K] := Std.ExtTreeMap K K

namespace FaceFlags

variable {K : Type} [Ord K] [Std.TransOrd K]

/-- The first key that is not registered, by ascending tails, each tail
before its head. -/
def unregistered? (flags : FaceFlags K) (registered : K → Bool) : Option K :=
  flags.toList.findSome? fun (tail, head) =>
    if !registered tail then some tail
    else if !registered head then some head
    else none

variable [DecidableEq K]

/-- The keys met on the way from `current` until a flag leads back to
`start`, using at most `fuel` flags. -/
def follow (flags : FaceFlags K) (start : K) :
    Nat → K → Except (FaceFault K) (List K)
  | 0, _ => .error (.unclosed flags.size)
  | fuel + 1, current =>
    match flags[current]? with
    | none => .error (.deadEnd current)
    | some next =>
      if next = start then .ok [current]
      else (flags.follow start fuel next).map (current :: ·)

/-- The tails in the order of the walk, if they form one cycle. -/
def cycle (flags : FaceFlags K) : Except (FaceFault K) (List K) :=
  match flags.keys.head? with
  | none => .error .noFlags
  | some start =>
    (flags.follow start flags.size start).bind fun tails =>
      if tails.length = flags.size then .ok tails
      else .error (.closedEarly tails.length flags.size)

/-- The walk around a face, once all its keys are known to be registered. -/
def walk (flags : FaceFlags K) (registered : K → Bool) :
    Except (FaceFault K) (List K) :=
  match flags.unregistered? registered with
  | some key => .error (.undefinedVertex key)
  | none => flags.cycle

end FaceFlags

end Polyhedra
