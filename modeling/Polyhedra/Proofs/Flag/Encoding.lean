import Mathlib
import Polyhedra.Proofs.Flag.Key

/-!
# Keys encode index lists

A key is entered with one to four indices.  Its slots are those indices, each
one higher, filled up with zeros.  While the indices fit, comparing two
filled lists gives the same as comparing the index lists, where a proper
beginning comes first; so the keys are told apart by their indices alone and
are sorted like their index lists.

The text of a key lists its slots between commas, and a number ends at the
comma after it.
-/

namespace Polyhedra

/-- The indices with which a key is entered. -/
inductive IndexTuple where
  | one (a : ℕ)
  | two (a b : ℕ)
  | three (a b c : ℕ)
  | four (a b c d : ℕ)

namespace IndexTuple

def key : IndexTuple → IndexKey
  | one a => .single a
  | two a b => .pair a b
  | three a b c => .triple a b c
  | four a b c d => .quadruple a b c d

def indices : IndexTuple → List ℕ
  | one a => [a]
  | two a b => [a, b]
  | three a b c => [a, b, c]
  | four a b c d => [a, b, c, d]

def Fits (tuple : IndexTuple) : Prop :=
  ∀ index ∈ tuple.indices, index ≤ IndexKey.maxIndex

theorem indices_injective : Function.Injective indices := by
  intro tuple other h
  cases tuple <;> cases other <;> simp_all [indices]

theorem length_indices_le (tuple : IndexTuple) :
    tuple.indices.length ≤ 4 := by
  cases tuple <;> simp [indices]

end IndexTuple

namespace IndexKey

/-- The first `n` slots for a list of indices. -/
def filled : ℕ → List ℕ → List ℕ
  | 0, _ => []
  | n + 1, [] => 0 :: filled n []
  | n + 1, index :: indices => slot index :: filled n indices

theorem slots_key (tuple : IndexTuple) :
    tuple.key.slots = filled 4 tuple.indices := by
  cases tuple <;> rfl

theorem filled_lt_filled_iff {n : ℕ} {indices other : List ℕ}
    (hlength : indices.length ≤ n)
    (hlength' : other.length ≤ n)
    (hfits : ∀ index ∈ indices, index ≤ maxIndex)
    (hfits' : ∀ index ∈ other, index ≤ maxIndex) :
    filled n indices < filled n other ↔ indices < other := by
  induction n generalizing indices other with
  | zero =>
      rw [List.length_eq_zero_iff.mp (Nat.le_zero.mp hlength),
        List.length_eq_zero_iff.mp (Nat.le_zero.mp hlength')]
      rfl
  | succ n ih =>
      cases indices with
      | nil =>
          cases other with
          | nil => simp
          | cons b other =>
              simp [filled, List.cons_lt_cons_iff, slot_pos]
      | cons a indices =>
          have ha : slot a = a + 1 := slot_eq (hfits a (by simp))
          cases other with
          | nil => simp [filled, List.cons_lt_cons_iff, ha]
          | cons b other =>
              have hb : slot b = b + 1 := slot_eq (hfits' b (by simp))
              have htail :
                  filled n indices < filled n other ↔ indices < other :=
                ih (Nat.succ_le_succ_iff.mp hlength)
                  (Nat.succ_le_succ_iff.mp hlength') (fun index hindex =>
                    hfits index (List.mem_cons_of_mem a hindex))
                  fun index hindex =>
                    hfits' index (List.mem_cons_of_mem b hindex)
              simp only [filled, List.cons_lt_cons_iff, ha, hb, htail,
                Nat.add_lt_add_iff_right, Nat.add_right_cancel_iff]

theorem filled_inj {n : ℕ} {indices other : List ℕ}
    (hlength : indices.length ≤ n)
    (hlength' : other.length ≤ n)
    (hfits : ∀ index ∈ indices, index ≤ maxIndex)
    (hfits' : ∀ index ∈ other, index ≤ maxIndex)
    (h : filled n indices = filled n other) : indices = other := by
  have hlt := filled_lt_filled_iff hlength hlength' hfits hfits'
  have hgt := filled_lt_filled_iff hlength' hlength hfits' hfits
  rw [h] at hlt hgt
  apply le_antisymm
  · exact not_lt.mp fun hother => lt_irrefl _ (hgt.mpr hother)
  · exact not_lt.mp fun hindices => lt_irrefl _ (hlt.mpr hindices)

/-- Keys are sorted like the lists of their slots. -/
theorem compare_eq_lt_iff (key other : IndexKey) :
    compare key other = .lt ↔ key.slots < other.slots := by
  have hcompare : compare key other = lexicographic key other := rfl
  simp only [hcompare, lexicographic, compareLex, compareOn,
    Ordering.then_eq_lt, Nat.compare_eq_lt, Nat.compare_eq_eq, slots,
    List.cons_lt_cons_iff, List.not_lt_nil, and_false, or_false]

/-! ## The text of a key -/

theorem toList_toString (key : IndexKey) :
    (toString key).toList =
      '(' :: (Nat.toDigits 10 key.first ++ ',' ::
        (Nat.toDigits 10 key.second ++ ',' :: (Nat.toDigits 10 key.third ++
          ',' :: (Nat.toDigits 10 key.fourth ++ [')'])))) := by
  simp [toString]

theorem toString_injective :
    Function.Injective (toString : IndexKey → String) := by
  intro key other h
  have hcomma :
      ∀ rest : List Char, (',' :: rest).takeWhile Char.isDigit = [] :=
    fun _ => rfl
  have htext := congrArg String.toList h
  rw [toList_toString, toList_toString] at htext
  obtain ⟨hfirst, hrest⟩ :=
    Label.toDigits_append_inj (List.cons.inj htext).2 (hcomma _) (hcomma _)
  obtain ⟨hsecond, hrest⟩ :=
    Label.toDigits_append_inj (List.cons.inj hrest).2 (hcomma _) (hcomma _)
  obtain ⟨hthird, hrest⟩ :=
    Label.toDigits_append_inj (List.cons.inj hrest).2 (hcomma _) (hcomma _)
  obtain ⟨hfourth, -⟩ :=
    Label.toDigits_append_inj (List.cons.inj hrest).2 rfl rfl
  cases key
  cases other
  simp_all

/-! ## Keys as codes -/

theorem key_inj_iff {tuple other : IndexTuple}
    (hfits : tuple.Fits)
    (hfits' : other.Fits) :
    tuple.key = other.key ↔ tuple = other := by
  refine ⟨fun h => ?_, congrArg IndexTuple.key⟩
  have hfilled : filled 4 tuple.indices = filled 4 other.indices := by
    rw [← slots_key, ← slots_key, h]
  exact IndexTuple.indices_injective (filled_inj tuple.length_indices_le
    other.length_indices_le hfits hfits' hfilled)

theorem compare_key_eq_lt_iff {tuple other : IndexTuple}
    (hfits : tuple.Fits)
    (hfits' : other.Fits) :
    compare tuple.key other.key = .lt ↔ tuple.indices < other.indices := by
  rw [compare_eq_lt_iff, slots_key, slots_key]
  exact filled_lt_filled_iff tuple.length_indices_le other.length_indices_le
    hfits hfits'

theorem single_lt_pair {a b : ℕ}
    (ha : a ≤ maxIndex)
    (hb : b ≤ maxIndex) :
    compare (single a) (pair a b) = .lt := by
  have hone : (IndexTuple.one a).Fits := by
    simp [IndexTuple.Fits, IndexTuple.indices, ha]
  have htwo : (IndexTuple.two a b).Fits := by
    simp [IndexTuple.Fits, IndexTuple.indices, ha, hb]
  exact (compare_key_eq_lt_iff hone htwo).mpr (by simp [IndexTuple.indices])

theorem pair_lt_single {a b c : ℕ}
    (hb : b ≤ maxIndex)
    (hc : c ≤ maxIndex)
    (hlt : a < c) :
    compare (pair a b) (single c) = .lt := by
  have htwo : (IndexTuple.two a b).Fits := by
    simp [IndexTuple.Fits, IndexTuple.indices, hb, hlt.le.trans hc]
  have hone : (IndexTuple.one c).Fits := by
    simp [IndexTuple.Fits, IndexTuple.indices, hc]
  exact (compare_key_eq_lt_iff htwo hone).mpr
    (List.cons_lt_cons_iff.mpr (.inl hlt))

theorem edge_eq_iff {a b c d : ℕ}
    (ha : a ≤ maxIndex)
    (hb : b ≤ maxIndex)
    (hc : c ≤ maxIndex)
    (hd : d ≤ maxIndex) :
    edge a b = edge c d ↔ s(a, b) = s(c, d) := by
  refine ⟨edge_inj ha hb hc hd, fun h => ?_⟩
  rw [Sym2.eq_iff] at h
  grind [edge_comm]

theorem side_eq_iff {i j a b c d : ℕ}
    (hi : i ≤ maxIndex)
    (hj : j ≤ maxIndex)
    (ha : a ≤ maxIndex)
    (hb : b ≤ maxIndex)
    (hc : c ≤ maxIndex)
    (hd : d ≤ maxIndex) :
    side i a b = side j c d ↔ i = j ∧ s(a, b) = s(c, d) := by
  refine ⟨side_inj hi hj ha hb hc hd, fun h => ?_⟩
  rw [Sym2.eq_iff] at h
  grind [side_comm]

/-- Keys with indices that fit are an ordered code of their index lists: the
constructor and the indices can be told from the key, keys are sorted like
index lists, and only the direction of an edge is lost.  The text of a key
tells it from every other key. -/
theorem faithful :
    (∀ tuple other : IndexTuple, tuple.Fits → other.Fits →
        (tuple.key = other.key ↔ tuple = other) ∧
        (compare tuple.key other.key = .lt ↔
          tuple.indices < other.indices)) ∧
      (∀ a b : ℕ, a + 1 ≤ maxIndex → b ≤ maxIndex →
        compare (single a) (pair a b) = .lt ∧
        compare (pair a b) (single (a + 1)) = .lt) ∧
      (∀ a b c d : ℕ, a ≤ maxIndex → b ≤ maxIndex → c ≤ maxIndex →
        d ≤ maxIndex → (edge a b = edge c d ↔ s(a, b) = s(c, d))) ∧
      (∀ i j a b c d : ℕ, i ≤ maxIndex → j ≤ maxIndex → a ≤ maxIndex →
        b ≤ maxIndex → c ≤ maxIndex → d ≤ maxIndex →
        (side i a b = side j c d ↔ i = j ∧ s(a, b) = s(c, d))) ∧
      ∀ key other : IndexKey, key ≠ other →
        toString key ≠ toString other := by
  refine ⟨?_, ?_,
    fun a b c d => edge_eq_iff, fun i j a b c d => side_eq_iff, ?_⟩
  · intro tuple other hfits hfits'
    exact ⟨key_inj_iff hfits hfits', compare_key_eq_lt_iff hfits hfits'⟩
  · intro a b ha hb
    exact ⟨single_lt_pair (a.le_succ.trans ha) hb,
      pair_lt_single hb ha a.lt_succ_self⟩
  · intro key other hne htext
    exact hne (toString_injective htext)

theorem faithful_maxIndex :
    (IndexTuple.two maxIndex maxIndex).key ≠
        (IndexTuple.three maxIndex maxIndex 0).key ∧
      compare (pair (maxIndex - 1) maxIndex) (single maxIndex) = .lt ∧
      edge maxIndex 0 = edge 0 maxIndex ∧
      side 0 maxIndex 1 ≠ side maxIndex 1 maxIndex ∧
      toString (single maxIndex) ≠ toString (pair maxIndex 0) := by
  obtain ⟨hkey, hbetween, hedge, hside, htext⟩ := faithful
  refine ⟨?_, ?_, ?_, ?_, ?_⟩
  · have hiff := (hkey (.two maxIndex maxIndex) (.three maxIndex maxIndex 0)
      (by simp [IndexTuple.Fits, IndexTuple.indices])
      (by simp [IndexTuple.Fits, IndexTuple.indices])).1
    simp [hiff]
  · exact (hbetween (maxIndex - 1) maxIndex (by decide) (by decide)).2
  · exact (hedge maxIndex 0 0 maxIndex (by decide) (by decide) (by decide)
      (by decide)).mpr Sym2.eq_swap
  · intro h
    have hface :=
      ((hside 0 maxIndex maxIndex 1 1 maxIndex (by decide) (by decide)
        (by decide) (by decide) (by decide) (by decide)).mp h).1
    exact absurd hface (by decide)
  · exact htext _ _ (by decide)

end IndexKey
end Polyhedra
