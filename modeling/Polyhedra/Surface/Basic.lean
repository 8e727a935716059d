import Polyhedra.Surface.Face

/-!
# Surfaces

The combinatorial part of a polyhedron: its faces in order.  Nothing here
depends on positions.
-/

namespace Polyhedra

/-- The faces of a polyhedron. -/
abbrev Surface := List Face

namespace Surface

/-- The faces with their indices. -/
def indexed (surface : Surface) : List (Face × Nat) :=
  surface.zipIdx

/-- Every corner is one of `count` vertices. -/
def InRange (surface : Surface) (count : Nat) : Prop :=
  ∀ face ∈ surface, ∀ v ∈ face, v < count

instance (surface : Surface) (count : Nat) :
    Decidable (surface.InRange count) :=
  inferInstanceAs (Decidable (∀ face ∈ surface, ∀ v ∈ face, v < count))

/-- Every face is a triangle. -/
def Triangular (surface : Surface) : Prop :=
  ∀ face ∈ surface, face.length = 3

instance (surface : Surface) : Decidable surface.Triangular :=
  inferInstanceAs (Decidable (∀ face ∈ surface, face.length = 3))

/-- The number of sides of every face. -/
def sideCounts (surface : Surface) : List Nat :=
  surface.map List.length

/-- The faces that pass a filter on the number of sides. -/
def selected (surface : Surface) (sides : Nat) : List Face :=
  surface.filter fun face => Face.passes sides face.length

/-- Every directed edge with the index of its face: face by face, from the
edge into the first corner on. -/
def ownedEdges (surface : Surface) : List (Edge × Nat) :=
  surface.indexed.flatMap fun (face, i) => face.arrivals.map fun edge =>
    (edge, i)

end Surface

end Polyhedra
