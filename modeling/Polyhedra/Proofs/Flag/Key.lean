import Mathlib
import Polyhedra.Flag.IndexKey
import Polyhedra.Flag.Label

/-!
# Keys are faithful

A label can be read back: the letters before the first digit are the role,
the digits after them the first index, and what follows is the second index.
So two roles with one label are the same role with the same indices.

A key made of indices determines the number of its slots and the indices in
them, as long as the indices fit.  The key of an edge forgets the direction
of the edge and nothing else.
-/

namespace Polyhedra

/-! ## Labels -/

namespace Label

/-- The letters of a label, its first index, and the text after it. -/
def read (label : String) : List Char × ℕ × List Char :=
  let letters := label.toList.takeWhile fun c => !c.isDigit
  let rest := label.toList.dropWhile fun c => !c.isDigit
  (letters, Nat.ofDigitChars 10 (rest.takeWhile Char.isDigit) 0,
    rest.dropWhile Char.isDigit)

theorem isDigit_of_mem_toDigits {n : ℕ} {c : Char}
    (hc : c ∈ Nat.toDigits 10 n) : c.isDigit = true :=
  Nat.isDigit_of_mem_toDigits (by omega) (by omega) hc

theorem read_of_toList {label : String} {letters tail : List Char} {n : ℕ}
    (hlabel : label.toList = letters ++ (Nat.toDigits 10 n ++ tail))
    (hletters : ∀ c ∈ letters, c.isDigit = false)
    (htail : tail.takeWhile Char.isDigit = []) :
    read label = (letters, n, tail) := by
  have hdigits : (Nat.toDigits 10 n ++ tail).takeWhile Char.isDigit =
      Nat.toDigits 10 n := by
    rw [List.takeWhile_append_of_pos fun c hc => isDigit_of_mem_toDigits hc,
      htail, List.append_nil]
  have hrest :
      (Nat.toDigits 10 n ++ tail).dropWhile Char.isDigit = tail := by
    rw [List.dropWhile_append_of_pos fun c hc => isDigit_of_mem_toDigits hc]
    have hsplit :=
      List.takeWhile_append_dropWhile (p := Char.isDigit) (l := tail)
    rwa [htail, List.nil_append] at hsplit
  have hfirst :
      (Nat.toDigits 10 n ++ tail).takeWhile (fun c => !c.isDigit) = [] ∧
      (Nat.toDigits 10 n ++ tail).dropWhile (fun c => !c.isDigit) =
        Nat.toDigits 10 n ++ tail := by
    cases hn : Nat.toDigits 10 n with
    | nil => exact absurd hn Nat.toDigits_ne_nil
    | cons c digits =>
        have hc : c.isDigit = true :=
          isDigit_of_mem_toDigits (n := n) (by simp [hn])
        simp [hc]
  have hnot : ∀ c ∈ letters, (!c.isDigit) = true := by
    intro c hc
    simp [hletters c hc]
  unfold read
  simp only [hlabel]
  rw [List.takeWhile_append_of_pos hnot, List.dropWhile_append_of_pos hnot,
    hfirst.1, hfirst.2, hdigits, hrest, Nat.ofDigitChars_ten_toDigits,
    List.append_nil]

/-- A number can be read off what it is the beginning of. -/
theorem toDigits_append_inj {a b : ℕ} {tail other : List Char}
    (h : Nat.toDigits 10 a ++ tail = Nat.toDigits 10 b ++ other)
    (htail : tail.takeWhile Char.isDigit = [])
    (hother : other.takeWhile Char.isDigit = []) :
    a = b ∧ tail = other := by
  have hread :
      ∀ (n : ℕ) {rest : List Char}, rest.takeWhile Char.isDigit = [] →
        read (String.ofList (Nat.toDigits 10 n ++ rest)) = ([], n, rest) :=
    fun n _ hrest =>
    read_of_toList (by simp) (by simp) hrest
  have hsame := hread a htail
  rw [h, hread b hother] at hsame
  simpa [eq_comm] using hsame

theorem read_one {role : String}
    (hrole : ∀ c ∈ role.toList, c.isDigit = false)
    (a : ℕ) :
    read (one role a) = (role.toList, a, []) := by
  apply read_of_toList _ hrole rfl
  simp [one]

theorem read_two {role : String}
    (hrole : ∀ c ∈ role.toList, c.isDigit = false)
    (a b : ℕ) :
    read (two role a b) = (role.toList, a, '-' :: Nat.toDigits 10 b) := by
  apply read_of_toList _ hrole
    (by simp [show Char.isDigit '-' = false by decide])
  simp [two]

theorem toDigits_inj {a b : ℕ} (h : Nat.toDigits 10 a = Nat.toDigits 10 b) :
    a = b := by
  have hread := congrArg (fun digits => Nat.ofDigitChars 10 digits 0) h
  simpa using hread

end Label

/-- The letters, the first index and the rest of the label. -/
def VertexRole.parts : VertexRole → List Char × ℕ × List Char
  | corner v => (['v'], v, [])
  | center i => (['c'], i, [])
  | inner i v => (['c'], i, '-' :: Nat.toDigits 10 v)
  | third a b => (['e'], a, '-' :: Nat.toDigits 10 b)
  | inset i v => (['i'], i, '-' :: Nat.toDigits 10 v)
  | lower v => (['d'], v, [])
  | window i v => (['f', 'i'], i, '-' :: Nat.toDigits 10 v)
  | lowerWindow i v => (['f', 'd'], i, '-' :: Nat.toDigits 10 v)
  | stellated a b => (['s'], a, '-' :: Nat.toDigits 10 b)

theorem VertexRole.read_label (role : VertexRole) :
    Label.read role.label = role.parts := by
  cases role <;>
    simp [label, parts, Label.vertex, Label.read_one, Label.read_two]

/-- The label of a vertex determines its role. -/
theorem VertexRole.label_injective :
    Function.Injective VertexRole.label := by
  intro role other heq
  have hsame := congrArg Label.read heq
  rw [read_label, read_label] at hsame
  cases role <;> cases other <;> simp [parts] at hsame <;>
    grind [Label.toDigits_inj]

def FaceRole.parts : FaceRole → List Char × ℕ × List Char
  | copy i => (['i', 'n'], i, [])
  | kept i => (['o'], i, [])
  | raised i => (['e', 'x'], i, [])
  | ring i v => (['f'], i, '-' :: Nat.toDigits 10 v)
  | outer i v => (['o'], i, '-' :: Nat.toDigits 10 v)
  | side i v => (['s'], i, '-' :: Nat.toDigits 10 v)
  | bottom i v => (['b'], i, '-' :: Nat.toDigits 10 v)
  | corner i v => (['c'], i, '-' :: Nat.toDigits 10 v)
  | edge a b => (['e'], a, '-' :: Nat.toDigits 10 b)

theorem FaceRole.read_label (role : FaceRole) :
    Label.read role.label = role.parts := by
  cases role <;> simp [label, parts, Label.read_one, Label.read_two]

/-- The label of a face determines its role. -/
theorem FaceRole.label_injective : Function.Injective FaceRole.label := by
  intro role other heq
  have hsame := congrArg Label.read heq
  rw [read_label, read_label] at hsame
  cases role <;> cases other <;> simp [parts] at hsame <;>
    grind [Label.toDigits_inj]

/-! ## Keys made of indices -/

namespace IndexKey

theorem slot_inj {a b : ℕ}
    (ha : a ≤ maxIndex)
    (hb : b ≤ maxIndex)
    (h : slot a = slot b) : a = b := by
  rw [slot_eq ha, slot_eq hb] at h
  exact Nat.succ.inj h

theorem single_inj {a b : ℕ}
    (ha : a ≤ maxIndex)
    (hb : b ≤ maxIndex)
    (h : single a = single b) : a = b :=
  slot_inj ha hb (congrArg first h)

theorem compare_single {a b : ℕ}
    (hab : a < b)
    (hb : b ≤ maxIndex) :
    compare (single a) (single b) = .lt := by
  have hslot : slot a < slot b := by
    rw [slot_eq (hab.le.trans hb), slot_eq hb]
    omega
  change lexicographic (single a) (single b) = .lt
  simp [lexicographic, compareLex, compareOn, single,
    Nat.compare_eq_lt.mpr hslot]

theorem first_le_of_compare {a b : IndexKey} (h : compare a b = .lt) :
    a.first ≤ b.first := by
  by_contra hlt
  have hgt : compare a.first b.first = .gt :=
    Nat.compare_eq_gt.mpr (by omega)
  change lexicographic a b = .lt at h
  simp [lexicographic, compareLex, compareOn, hgt] at h

theorem pair_inj {a b c d : ℕ}
    (ha : a ≤ maxIndex)
    (hb : b ≤ maxIndex)
    (hc : c ≤ maxIndex)
    (hd : d ≤ maxIndex)
    (h : pair a b = pair c d) : a = c ∧ b = d :=
  ⟨slot_inj ha hc (congrArg first h), slot_inj hb hd (congrArg second h)⟩

theorem edge_inj {a b c d : ℕ}
    (ha : a ≤ maxIndex)
    (hb : b ≤ maxIndex)
    (hc : c ≤ maxIndex)
    (hd : d ≤ maxIndex)
    (h : edge a b = edge c d) : s(a, b) = s(c, d) := by
  obtain ⟨hmin, hmax⟩ := pair_inj ((min_le_left a b).trans ha) (max_le ha hb)
    ((min_le_left c d).trans hc) (max_le hc hd) h
  rw [Sym2.eq_iff]
  omega

theorem side_inj {i j a b c d : ℕ}
    (hi : i ≤ maxIndex)
    (hj : j ≤ maxIndex)
    (ha : a ≤ maxIndex)
    (hb : b ≤ maxIndex)
    (hc : c ≤ maxIndex)
    (hd : d ≤ maxIndex)
    (h : side i a b = side j c d) :
    i = j ∧ s(a, b) = s(c, d) := by
  have hface : i = j := slot_inj hi hj (congrArg first h)
  have hmin : min a b = min c d := slot_inj ((min_le_left a b).trans ha)
    ((min_le_left c d).trans hc) (congrArg second h)
  have hmax : max a b = max c d :=
    slot_inj (max_le ha hb) (max_le hc hd) (congrArg third h)
  refine ⟨hface, ?_⟩
  rw [Sym2.eq_iff]
  omega

end IndexKey

/-- What a key made of indices stands for.  The direction of an edge is not
part of it. -/
inductive IndexRole where
  | single (a : ℕ)
  | pair (a b : ℕ)
  | edge (e : Sym2 ℕ)
  | side (i : ℕ) (e : Sym2 ℕ)

namespace IndexRole

def key : IndexRole → IndexKey
  | single a => .single a
  | pair a b => .pair a b
  | edge e => e.lift ⟨IndexKey.edge, IndexKey.edge_comm⟩
  | side i e => e.lift ⟨IndexKey.side i, IndexKey.side_comm i⟩

/-- All indices fit their slots. -/
def Fits : IndexRole → Prop
  | single a => a ≤ IndexKey.maxIndex
  | pair a b => a ≤ IndexKey.maxIndex ∧ b ≤ IndexKey.maxIndex
  | edge e => ∀ v ∈ e, v ≤ IndexKey.maxIndex
  | side i e => i ≤ IndexKey.maxIndex ∧ ∀ v ∈ e, v ≤ IndexKey.maxIndex

def IsPair : IndexRole → Prop
  | pair _ _ => True
  | _ => False

def IsEdge : IndexRole → Prop
  | edge _ => True
  | _ => False

/-- Only a pair and an edge can have one key. -/
theorem key_inj {role other : IndexRole}
    (hrole : role.Fits)
    (hother : other.Fits)
    (hkind : role.IsPair → ¬ other.IsEdge)
    (hkind' : role.IsEdge → ¬ other.IsPair)
    (h : role.key = other.key) : role = other := by
  have hslot := IndexKey.slot_pos
  cases role with
  | single a =>
      cases other with
      | single b => rw [IndexKey.single_inj hrole hother h]
      | pair c d => exact absurd (congrArg IndexKey.second h) (hslot d).ne
      | edge e =>
          induction e with
          | h c d => exact absurd (congrArg IndexKey.second h) (hslot _).ne
      | side j e =>
          induction e with
          | h c d => exact absurd (congrArg IndexKey.second h) (hslot _).ne
  | pair a b =>
      cases other with
      | single c => exact absurd (congrArg IndexKey.second h) (hslot b).ne'
      | pair c d =>
          obtain ⟨rfl, rfl⟩ :=
            IndexKey.pair_inj hrole.1 hrole.2 hother.1 hother.2 h
          rfl
      | edge e => exact absurd trivial (hkind trivial)
      | side j e =>
          induction e with
          | h c d => exact absurd (congrArg IndexKey.third h) (hslot _).ne
  | edge e =>
      induction e with
      | h a b =>
          cases other with
          | single c =>
              exact absurd (congrArg IndexKey.second h) (hslot _).ne'
          | pair c d => exact absurd trivial (hkind' trivial)
          | edge e =>
              induction e with
              | h c d =>
                  rw [IndexKey.edge_inj (hrole a (by simp)) (hrole b
                    (by simp)) (hother c (by simp)) (hother d (by simp)) h]
          | side j e =>
              induction e with
              | h c d =>
                  exact absurd (congrArg IndexKey.third h) (hslot _).ne
  | side i e =>
      induction e with
      | h a b =>
          cases other with
          | single c =>
              exact absurd (congrArg IndexKey.second h) (hslot _).ne'
          | pair c d =>
              exact absurd (congrArg IndexKey.third h) (hslot _).ne'
          | edge e =>
              induction e with
              | h c d =>
                  exact absurd (congrArg IndexKey.third h) (hslot _).ne'
          | side j e =>
              induction e with
              | h c d =>
                  obtain ⟨rfl, heq⟩ :=
                    IndexKey.side_inj hrole.1 hother.1 (hrole.2 a (by simp))
                      (hrole.2 b (by simp)) (hother.2 c (by simp))
                      (hother.2 d (by simp)) h
                  rw [heq]

theorem injOn_key_of_not_pair {roles : Set IndexRole}
    (hfits : ∀ role ∈ roles, role.Fits)
    (hkind : ∀ role ∈ roles, ¬ role.IsPair) : Set.InjOn key roles :=
  fun role hrole other hother => key_inj (hfits role hrole)
    (hfits other hother) (fun hpair => absurd hpair (hkind role hrole))
    fun _ => hkind other hother

theorem injOn_key_of_not_edge {roles : Set IndexRole}
    (hfits : ∀ role ∈ roles, role.Fits)
    (hkind : ∀ role ∈ roles, ¬ role.IsEdge) : Set.InjOn key roles :=
  fun role hrole other hother => key_inj (hfits role hrole)
    (hfits other hother) (fun _ => hkind other hother) fun hedge =>
      absurd hedge (hkind role hrole)

end IndexRole
end Polyhedra
