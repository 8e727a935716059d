/-!
# Edges

A directed edge is the pair of its tail and its head.  Edges are ordered by
their tails and then by their heads, which makes them keys of ordered maps.
-/

namespace Polyhedra

/-- The directed edge from the first vertex to the second. -/
abbrev Edge := Nat × Nat

namespace Edge

/-- By tail, then by head. -/
def order : Edge → Edge → Ordering :=
  compareLex (compareOn Prod.fst) (compareOn Prod.snd)

instance : Std.TransCmp order :=
  inferInstanceAs
    (Std.TransCmp (compareLex (compareOn Prod.fst) (compareOn Prod.snd)))

instance : Std.LawfulEqCmp order where
  eq_of_compare {e f} h := by
    simp only [order, compareLex, compareOn, Ordering.then_eq_eq,
      Nat.compare_eq_eq] at h
    exact Prod.ext h.1 h.2

/-- The edge without its direction: the smaller index first. -/
def undirected (edge : Edge) : Edge :=
  (min edge.1 edge.2, max edge.1 edge.2)

theorem undirected_swap (edge : Edge) :
    undirected edge.swap = undirected edge := by
  simp only [undirected, Prod.fst_swap, Prod.snd_swap, Nat.min_comm,
    Nat.max_comm]

end Edge

end Polyhedra
