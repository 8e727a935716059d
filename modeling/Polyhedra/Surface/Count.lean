import Polyhedra.Surface.Basic
import Std.Data.ExtTreeMap
import Std.Data.ExtTreeSet

/-!
# Counting edges, sides and degrees
-/

namespace Polyhedra

namespace Surface

/-- The distinct undirected edges. -/
def edgeSet (surface : Surface) : Std.ExtTreeSet Edge Edge.order :=
  .ofList (surface.flatMap fun face => face.edges.map Edge.undirected)
    Edge.order

def edgeCount (surface : Surface) : Nat :=
  surface.edgeSet.size

/-- How many faces there are of each number of sides, by ascending number. -/
def sideHistogram (surface : Surface) : Std.ExtTreeMap Nat Nat :=
  surface.foldl (fun histogram face =>
    histogram.insert face.length (histogram.getD face.length 0 + 1)) ∅

/-- For each of `count` vertices the number of corners at it. -/
def degrees (surface : Surface) (count : Nat) : Array Nat :=
  surface.foldl (fun degrees face =>
      face.foldl (fun degrees v => degrees.modify v (· + 1)) degrees)
    (Array.replicate count 0)

/-- Of `count` vertices, the number that a truncation with the filter `sides`
on the degree would cut.  A vertex outside every face is never cut. -/
def cutCount (surface : Surface) (count sides : Nat) : Nat :=
  (surface.degrees count).toList.countP fun degree => 0 <
    degree && Face.passes sides degree

end Surface

end Polyhedra
