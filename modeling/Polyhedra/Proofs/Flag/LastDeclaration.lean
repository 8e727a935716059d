import Mathlib
import Polyhedra.Proofs.Flag.Diagnosis
import Polyhedra.Proofs.Flag.Order

/-!
# The last declarations

A system keeps the last position of every vertex and the last head of every
face and tail, and nothing else: two sequences of declarations lead to the
same system exactly when they agree on these.  So an assembler gives the same
answers after both, and two declarations about different things can change
places wherever they stand.
-/

namespace Polyhedra

namespace Declaration

variable {F K : Type}

/-- What a declaration is about: a vertex, or a face and the tail of one of
its flags. -/
def subject : Declaration F K → K ⊕ F × K
  | vertex key _ => .inl key
  | flag edge => .inr (edge.face, edge.tail)

section Last

variable {α : Type} (value? : Declaration F K → Option α)

/-- The last value that some declarations give. -/
def last? (declarations : List (Declaration F K)) : Option α :=
  declarations.reverse.findSome? value?

theorem last?_append (declarations other : List (Declaration F K)) :
    last? value? (declarations ++ other) =
      (last? value? other).or (last? value? declarations) := by
  rw [last?, List.reverse_append, List.findSome?_append]
  rfl

theorem last?_eq_some {declarations : List (Declaration F K)} {a : α}
    (hgiven : ∃ declaration ∈ declarations, value? declaration = some a)
    (hunique :
      ∀ declaration ∈ declarations,
        ∀ b, value? declaration = some b → b = a) :
    last? value? declarations = some a := by
  cases hlast : last? value? declarations with
  | none =>
      obtain ⟨declaration, hmem, ha⟩ := hgiven
      have hnone :=
        List.findSome?_eq_none_iff.mp hlast declaration
          (List.mem_reverse.mpr hmem)
      cases ha.symm.trans hnone
  | some b =>
      obtain ⟨declaration, hmem, hb⟩ :=
        List.exists_of_findSome?_eq_some hlast
      rw [hunique declaration (List.mem_reverse.mp hmem) b hb]

/-- Two declarations that do not both give a value can change places. -/
theorem last?_swap {a b : Declaration F K}
    (h : value? a = none ∨ value? b = none)
    (before after : List (Declaration F K)) :
    last? value? (before ++ a :: b :: after) =
      last? value? (before ++ b :: a :: after) := by
  have hpair : last? value? [a, b] = last? value? [b, a] := by
    rcases h with h | h
    · cases hb : value? b <;> simp [last?, h, hb]
    · cases ha : value? a <;> simp [last?, h, ha]
  have hsplit : ∀ c d : Declaration F K,
      before ++ c :: d :: after = before ++ [c, d] ++ after := by
    simp
  rw [hsplit, hsplit, last?_append, last?_append, hpair, ← last?_append,
    ← last?_append]

end Last

variable [DecidableEq F] [DecidableEq K]

/-- The position that a declaration gives to the vertex `key`. -/
def positionOf? (key : K) : Declaration F K → Option Point
  | vertex other position => if other = key then some position else none
  | flag _ => none

/-- The head that a declaration gives to the flag of `face` with the tail
`tail`. -/
def headOf? (face : F) (tail : K) : Declaration F K → Option K
  | vertex _ _ => none
  | flag edge =>
      if edge.face = face ∧ edge.tail = tail then some edge.head else none

/-- Every vertex is given the same position last, and every face and tail the
same head. -/
structure Agree (declarations other : List (Declaration F K)) : Prop where
  position : ∀ key,
    last? (positionOf? key) declarations = last? (positionOf? key) other
  head : ∀ face tail,
    last? (headOf? face tail) declarations = last? (headOf? face tail) other

omit [DecidableEq F] in
theorem subject_of_positionOf? {declaration : Declaration F K} {key : K}
    (h : declaration.positionOf? key ≠ none) :
    declaration.subject = .inl key := by
  cases declaration with
  | vertex other position =>
      obtain rfl : other = key := by simpa [positionOf?] using h
      rfl
  | flag edge => exact absurd rfl h

theorem subject_of_headOf? {declaration : Declaration F K} {face : F}
    {tail : K} (h : declaration.headOf? face tail ≠ none) :
    declaration.subject = .inr (face, tail) := by
  cases declaration with
  | vertex key position => exact absurd rfl h
  | flag edge =>
      obtain ⟨rfl, rfl⟩ : edge.face = face ∧ edge.tail = tail := by
        simpa [headOf?] using h
      rfl

theorem Agree.swap {a b : Declaration F K} (h : a.subject ≠ b.subject)
    (before after : List (Declaration F K)) :
    Agree (before ++ a :: b :: after) (before ++ b :: a :: after) where
  position key := by
    refine last?_swap _ ?_ before after
    by_contra! hboth
    exact h ((subject_of_positionOf? hboth.1).trans
      (subject_of_positionOf? hboth.2).symm)
  head face tail := by
    refine last?_swap _ ?_ before after
    by_contra! hboth
    exact h
      ((subject_of_headOf? hboth.1).trans (subject_of_headOf? hboth.2).symm)

end Declaration

namespace FlagSystem

section Run

variable {F K α : Type} [Ord F] [Ord K] [Std.TransOrd F] [Std.TransOrd K]
  {value? : Declaration F K → Option α}

/-- When every declaration overrides what a view shows, if it gives a value,
the view shows the last value given. -/
theorem view_ofDeclarations (view : FlagSystem F K → Option α)
    (hempty : view ∅ = none)
    (hdeclare : ∀ (system : FlagSystem F K) declaration, view
      (system.declare declaration) = (value? declaration).or (view system))
    (declarations : List (Declaration F K)) :
    view (ofDeclarations declarations) =
      Declaration.last? value? declarations := by
  have hrun :
      ∀ system : FlagSystem F K, view (declarations.foldl declare system) =
        (Declaration.last? value? declarations).or (view system) := by
    induction declarations with
    | nil => exact fun system => rfl
    | cons declaration rest ih =>
        intro system
        have hfirst :
            Declaration.last? value? [declaration] = value? declaration := by
          simp [Declaration.last?]
        rw [List.foldl_cons, ih, hdeclare, ← List.singleton_append,
          Declaration.last?_append, hfirst, Option.or_assoc]
  rw [ofDeclarations, hrun, hempty, Option.or_none]

end Run

variable {F K : Type} [Ord F] [Ord K] [Std.TransOrd F] [Std.TransOrd K]
  [Std.LawfulEqOrd F] [Std.LawfulEqOrd K]

/-- A system in which every face has a flag is determined by its positions
and heads. -/
theorem eq_of_views {system other : FlagSystem F K}
    (hsystem : system.FacesNonempty)
    (hother : other.FacesNonempty)
    (hposition : ∀ key, system.position? key = other.position? key)
    (hhead : ∀ face tail, system.head? face tail = other.head? face tail) :
    system = other := by
  have hmem : ∀ system : FlagSystem F K, system.FacesNonempty →
      ∀ face, face ∈ system.faces ↔
        ∃ tail head, system.head? face tail = some head := by
    intro system hnonempty face
    rw [Std.ExtTreeMap.mem_iff_isSome_getElem?, Option.isSome_iff_exists]
    constructor
    · rintro ⟨flags, hflags⟩
      have hkeys : 0 < flags.keys.length := by
        rw [Std.ExtTreeMap.length_keys]
        exact hnonempty face flags hflags
      obtain ⟨tail, htail⟩ := List.exists_mem_of_length_pos hkeys
      obtain ⟨head, hentry⟩ :=
        Option.isSome_iff_exists.mp
          (Std.ExtTreeMap.mem_iff_isSome_getElem?.mp
            (Std.ExtTreeMap.mem_keys.mp htail))
      exact ⟨tail, head, Option.bind_eq_some_iff.mpr ⟨flags, hflags, hentry⟩⟩
    · rintro ⟨tail, head, hentry⟩
      obtain ⟨flags, hflags, -⟩ := Option.bind_eq_some_iff.mp hentry
      exact ⟨flags, hflags⟩
  have hfaces : system.faces = other.faces := by
    refine faces_ext (fun face => ?_) hhead
    rw [hmem system hsystem, hmem other hother]
    simp only [hhead]
  have hpositions : system.positions = other.positions :=
    Std.ExtTreeMap.ext_getElem? fun key => hposition key
  exact congrArg₂ FlagSystem.mk hpositions hfaces

variable [DecidableEq F] [DecidableEq K]

omit [Std.LawfulEqOrd F] [DecidableEq F] in
theorem position?_ofDeclarations (declarations : List (Declaration F K))
    (key : K) :
    (ofDeclarations declarations : FlagSystem F K).position? key =
      Declaration.last? (Declaration.positionOf? key) declarations := by
  refine view_ofDeclarations (fun system => system.position? key)
    Std.ExtTreeMap.getElem?_empty (fun system declaration => ?_) declarations
  cases declaration with
  | vertex other position =>
      rw [declare, position?_setVertex, Declaration.positionOf?]
      split <;> rfl
  | flag edge => rfl

theorem head?_ofDeclarations (declarations : List (Declaration F K))
    (face : F) (tail : K) :
    (ofDeclarations declarations : FlagSystem F K).head? face tail =
      Declaration.last? (Declaration.headOf? face tail) declarations := by
  refine view_ofDeclarations (fun system => system.head? face tail) ?_
    (fun system declaration => ?_) declarations
  · have hempty : (∅ : Std.ExtTreeMap F (FaceFlags K))[face]? = none :=
      Std.ExtTreeMap.getElem?_empty
    exact congrArg (Option.bind · _) hempty
  · cases declaration with
    | vertex key position => rfl
    | flag edge =>
        rw [declare, head?_setFlag, Declaration.headOf?]
        split <;> rfl

/-- Two sequences of declarations lead to the same system exactly when they
agree on what they declare last. -/
theorem ofDeclarations_eq_iff {declarations other : List (Declaration F K)} :
    (ofDeclarations declarations : FlagSystem F K) = ofDeclarations other ↔
      Declaration.Agree declarations other := by
  constructor
  · intro h
    constructor
    · intro key
      rw [← position?_ofDeclarations, ← position?_ofDeclarations, h]
    · intro face tail
      rw [← head?_ofDeclarations, ← head?_ofDeclarations, h]
  · intro h
    apply eq_of_views (facesNonempty_ofDeclarations _)
      (facesNonempty_ofDeclarations _)
    · intro key
      rw [position?_ofDeclarations, position?_ofDeclarations, h.position]
    · intro face tail
      rw [head?_ofDeclarations, head?_ofDeclarations, h.head]

end FlagSystem

namespace Assembler

variable {F K : Type} [Ord F] [Ord K] [Std.TransOrd F] [Std.TransOrd K]

def declare (assembler : Assembler F K) : Declaration F K → Assembler F K
  | .vertex key position => assembler.setVertex key position
  | .flag flag => assembler.setFlag flag

/-- A fresh assembler after some declarations. -/
def ofDeclarations (declarations : List (Declaration F K)) : Assembler F K :=
  declarations.foldl declare ∅

theorem ofDeclarations_eq (declarations : List (Declaration F K)) :
    (ofDeclarations declarations : Assembler F K) =
      { system := .ofDeclarations declarations } := by
  have hrun : ∀ assembler : Assembler F K,
      declarations.foldl declare assembler =
        { assembler with
          system :=
            declarations.foldl FlagSystem.declare assembler.system } := by
    induction declarations with
    | nil => exact fun _ => rfl
    | cons declaration rest ih =>
        intro assembler
        rw [List.foldl_cons, ih]
        cases declaration <;> rfl
  exact hrun ∅

/-- Two assemblers cannot be told apart by resolving them or by counting. -/
structure SameAnswers [DecidableEq K] [ToString F] [ToString K]
    (assembler other : Assembler F K) : Prop where
  resolve : ∀ name, assembler.resolve name = other.resolve name
  vertexCount : assembler.vertexCount = other.vertexCount
  faceCount : assembler.faceCount = other.faceCount

variable [Std.LawfulEqOrd F] [Std.LawfulEqOrd K] [DecidableEq F]
  [DecidableEq K] [ToString F] [ToString K]

/-- Declarations that agree on what they declare last give the same answers,
so two declarations about different things can change places. -/
theorem sameAnswers_of_agree :
    (∀ declarations other : List (Declaration F K),
          Declaration.Agree declarations other →
        SameAnswers (ofDeclarations declarations) (ofDeclarations other)) ∧
      ∀ (before after : List (Declaration F K)) (a b : Declaration F K),
        a.subject ≠ b.subject →
        SameAnswers (ofDeclarations (before ++ a :: b :: after))
          (ofDeclarations (before ++ b :: a :: after)) := by
  have hsame : ∀ declarations other : List (Declaration F K),
        Declaration.Agree declarations other →
      SameAnswers (ofDeclarations declarations) (ofDeclarations other) := by
    intro declarations other h
    have heq : (ofDeclarations declarations : Assembler F K) =
        ofDeclarations other := by
      rw [ofDeclarations_eq, ofDeclarations_eq,
        FlagSystem.ofDeclarations_eq_iff.mpr h]
    rw [heq]
    exact ⟨fun _ => rfl, rfl, rfl⟩
  exact ⟨hsame, fun before after a b h => hsame _ _ (.swap h before after)⟩

/-- A triangle whose vertex 3 is moved, and whose flag from 1 is turned from
3 to 2. -/
def amendedTriangle : List (Declaration ℕ ℕ) :=
  [.flag ⟨0, 1, 3⟩, .vertex 3 ⟨1, 1, 1⟩, .vertex 1 Point.origin,
    .flag ⟨0, 3, 1⟩, .flag ⟨0, 1, 2⟩, .vertex 2 Point.origin,
    .vertex 3 Point.origin, .flag ⟨0, 2, 3⟩]

/-- The same triangle, declared at once. -/
def plainTriangle : List (Declaration ℕ ℕ) :=
  [.vertex 1 Point.origin, .vertex 2 Point.origin, .vertex 3 Point.origin,
    .flag ⟨0, 1, 2⟩, .flag ⟨0, 2, 3⟩, .flag ⟨0, 3, 1⟩]

theorem sameAnswers_of_agree_triangle :
    Declaration.Agree amendedTriangle plainTriangle ∧
      SameAnswers (ofDeclarations amendedTriangle)
        (ofDeclarations plainTriangle) ∧
      (Declaration.vertex 3 Point.origin : Declaration ℕ ℕ).subject ≠
        (Declaration.flag ⟨0, 1, 2⟩ : Declaration ℕ ℕ).subject ∧
      SameAnswers (ofDeclarations ([.vertex 1 Point.origin,
            .vertex 2 Point.origin] ++ .vertex 3 Point.origin ::
          .flag ⟨0, 1, 2⟩ :: [.flag ⟨0, 2, 3⟩, .flag ⟨0, 3, 1⟩]))
        (ofDeclarations ([.vertex 1 Point.origin, .vertex 2 Point.origin] ++
          .flag ⟨0, 1, 2⟩ :: .vertex 3 Point.origin ::
          [.flag ⟨0, 2, 3⟩, .flag ⟨0, 3, 1⟩])) := by
  have hagree : Declaration.Agree amendedTriangle plainTriangle := by
    constructor
    · intro key
      by_cases hkey : key = 1 ∨ key = 2 ∨ key = 3
      · rcases hkey with rfl | rfl | rfl <;> rfl
      · push Not at hkey
        simp [amendedTriangle, plainTriangle, Declaration.last?,
          List.findSome?_cons, Declaration.positionOf?, hkey.1.symm,
          hkey.2.1.symm, hkey.2.2.symm]
    · intro face tail
      by_cases hflag : face = 0 ∧ (tail = 1 ∨ tail = 2 ∨ tail = 3)
      · rcases hflag with ⟨rfl, rfl | rfl | rfl⟩ <;> rfl
      · have hne : ∀ key, key = 1 ∨ key = 2 ∨ key = 3 →
            ¬ (0 = face ∧ key = tail) := by
          rintro key hkey ⟨rfl, rfl⟩
          exact hflag ⟨rfl, hkey⟩
        simp [amendedTriangle, plainTriangle, Declaration.last?,
          List.findSome?_cons, Declaration.headOf?, hne]
  have hsubject :
      (Declaration.vertex 3 Point.origin : Declaration ℕ ℕ).subject ≠
        (Declaration.flag ⟨0, 1, 2⟩ : Declaration ℕ ℕ).subject :=
    nofun
  exact ⟨hagree, sameAnswers_of_agree.1 _ _ hagree, hsubject,
    sameAnswers_of_agree.2 _ _ _ _ hsubject⟩

end Assembler
end Polyhedra
