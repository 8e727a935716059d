/-!
# Keys made of indices

A key holds up to four indices.  Each index is stored one higher, so that
zero marks a slot that is not used: keys of different lengths differ, and the
order of the slots is the lexicographic order of the index lists in which a
proper beginning comes first.  A slot is a 32-bit count; an index beyond
`IndexKey.maxIndex` is stored as the last value.
-/

namespace Polyhedra

structure IndexKey where
  first : Nat
  second : Nat
  third : Nat
  fourth : Nat
deriving DecidableEq

namespace IndexKey

/-- The largest index that a slot can hold. -/
def maxIndex : Nat := 4294967294

def slot (index : Nat) : Nat :=
  min index maxIndex + 1

theorem slot_eq {index : Nat} (h : index ≤ maxIndex) :
    slot index = index + 1 := by
  simp [slot, Nat.min_eq_left h]

theorem slot_pos (index : Nat) : 0 < slot index :=
  Nat.succ_pos _

def single (a : Nat) : IndexKey := ⟨slot a, 0, 0, 0⟩

def pair (a b : Nat) : IndexKey := ⟨slot a, slot b, 0, 0⟩

def triple (a b c : Nat) : IndexKey := ⟨slot a, slot b, slot c, 0⟩

def quadruple (a b c d : Nat) : IndexKey := ⟨slot a, slot b, slot c, slot d⟩

/-- The key of the edge between `a` and `b`, the same from both ends. -/
def edge (a b : Nat) : IndexKey :=
  pair (min a b) (max a b)

/-- The key of the edge between `a` and `b` as a side of the face `i`. -/
def side (i a b : Nat) : IndexKey :=
  triple i (min a b) (max a b)

theorem edge_comm (a b : Nat) : edge a b = edge b a := by
  simp [edge, Nat.min_comm, Nat.max_comm]

theorem side_comm (i a b : Nat) : side i a b = side i b a := by
  simp [side, Nat.min_comm, Nat.max_comm]

def slots (key : IndexKey) : List Nat :=
  [key.first, key.second, key.third, key.fourth]

instance : ToString IndexKey where
  toString key := s!"({key.first},{key.second},{key.third},{key.fourth})"

/-- The slots are compared from the first to the last. -/
def lexicographic : IndexKey → IndexKey → Ordering :=
  compareLex (compareOn first) (compareLex (compareOn second)
    (compareLex (compareOn third) (compareOn fourth)))

instance : Ord IndexKey := ⟨lexicographic⟩

instance : Std.TransOrd IndexKey :=
  inferInstanceAs (Std.TransCmp (compareLex (compareOn first) (compareLex
    (compareOn second) (compareLex (compareOn third) (compareOn fourth)))))

instance : Std.LawfulEqOrd IndexKey where
  eq_of_compare {a b} h := by
    have hslots : lexicographic a b = .eq := h
    simp only [lexicographic, compareLex, compareOn, Ordering.then_eq_eq,
      Nat.compare_eq_eq] at hslots
    obtain ⟨hfirst, hsecond, hthird, hfourth⟩ := hslots
    cases a
    cases b
    simp_all

end IndexKey

end Polyhedra
