import Polyhedra.Surface.Edge

/-!
# Faces as vertex cycles

A face lists its corners, counter-clockwise seen from outside; only the
cyclic order matters.  The neighbours of the corners are the list itself
turned by one place, so the directed edges of a face are its corners zipped
with the turned list.
-/

namespace Polyhedra

/-- The vertex indices of a face in cyclic order. -/
abbrev Face := List Nat

namespace Face

/-- For every corner the one after it. -/
def successors {α : Type} (corners : List α) : List α :=
  corners.drop 1 ++ corners.take 1

/-- For every corner the one before it. -/
def predecessors {α : Type} (corners : List α) : List α :=
  corners.drop (corners.length - 1) ++ corners.take (corners.length - 1)

@[simp] theorem length_successors {α : Type} (corners : List α) :
    (successors corners).length = corners.length := by
  simp only [successors, List.length_append, List.length_drop,
    List.length_take]
  omega

@[simp] theorem length_predecessors {α : Type} (corners : List α) :
    (predecessors corners).length = corners.length := by
  simp only [predecessors, List.length_append, List.length_drop,
    List.length_take]
  omega

@[simp] theorem mem_successors {α : Type} {corners : List α} {a : α} :
    a ∈ successors corners ↔ a ∈ corners := by
  unfold successors
  rw [List.mem_append, Or.comm, ← List.mem_append, List.take_append_drop]

@[simp] theorem mem_predecessors {α : Type} {corners : List α} {a : α} :
    a ∈ predecessors corners ↔ a ∈ corners := by
  unfold predecessors
  rw [List.mem_append, Or.comm, ← List.mem_append, List.take_append_drop]

/-- The directed edges, each from a corner to the next, starting with the
first corner. -/
def edges (face : Face) : List Edge :=
  face.zip (successors face)

/-- The directed edges, each from the previous corner to a corner, starting
with the edge into the first corner. -/
def arrivals (face : Face) : List Edge :=
  (predecessors face).zip face

/-- Three consecutive corners, for every corner as the third one. -/
def triples (face : Face) : List (Nat × Nat × Nat) :=
  (predecessors (predecessors face)).zip face.arrivals

@[simp] theorem length_edges (face : Face) :
    face.edges.length = face.length := by
  simp [edges]

@[simp] theorem length_arrivals (face : Face) :
    face.arrivals.length = face.length := by
  simp [arrivals]

@[simp] theorem length_triples (face : Face) :
    face.triples.length = face.length := by
  simp [triples]

/-- Whether a number of sides passes the filter `sides`; zero lets every
number pass. -/
def passes (sides count : Nat) : Bool :=
  sides == 0 || count == sides

@[simp] theorem passes_zero (count : Nat) : passes 0 count = true := by
  simp [passes]

end Face

end Polyhedra
