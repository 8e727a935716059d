import Mathlib
import Polyhedra.Notation.Basic

/-!
# The grammar of the written form

A text in which some character is no digit is read in one way.  Its last
character that is no digit is the seed, and the digits after it are the
parameter.  Every other character is the code of a token, except for the
digits that follow a code and are its argument.

A text that does not start with a digit is read on its own: what is written
before it only adds tokens in front.
-/

namespace Polyhedra
namespace Notation

/-! ## Runs of digits -/

/-- A run of digits in front of the text does not go on in it. -/
def StopsRun (text : List Char) : Prop :=
  ∀ c ∈ text.head?, c.isDigit = false

@[simp] theorem stopsRun_nil : StopsRun [] := by
  simp [StopsRun]

@[simp] theorem stopsRun_cons {c : Char} {rest : List Char} :
    StopsRun (c :: rest) ↔ c.isDigit = false := by
  simp [StopsRun]

theorem takeWhile_run_append {run rest : List Char}
    (hrun : ∀ c ∈ run, c.isDigit = true)
    (hrest : StopsRun rest) :
    (run ++ rest).takeWhile Char.isDigit = run := by
  rw [List.takeWhile_append_of_pos hrun]
  cases rest with
  | nil => simp
  | cons c rest => simp [stopsRun_cons.mp hrest]

theorem dropWhile_run_append {run rest : List Char}
    (hrun : ∀ c ∈ run, c.isDigit = true)
    (hrest : StopsRun rest) :
    (run ++ rest).dropWhile Char.isDigit = rest := by
  rw [List.dropWhile_append_of_pos hrun]
  cases rest with
  | nil => simp
  | cons c rest => simp [stopsRun_cons.mp hrest]

/-! ## Tokens -/

theorem scan_of_stopsRun {text : List Char} (h : StopsRun text) :
    scan text = ([], tokensOf text) := by
  cases text with
  | nil => rfl
  | cons c rest => simp [scan, tokensOf, stopsRun_cons.mp h]

theorem scan_append (before : List Char) {after : List Char}
    (h : StopsRun after) :
    scan (before ++ after) =
      ((scan before).1, (scan before).2 ++ tokensOf after) := by
  induction before with
  | nil => simp [scan, scan_of_stopsRun h]
  | cons c rest ih =>
      by_cases hdigit : c.isDigit <;> simp [scan, ih, hdigit]

theorem tokensOf_append (before : List Char) {after : List Char}
    (h : StopsRun after) :
    tokensOf (before ++ after) = tokensOf before ++ tokensOf after := by
  cases before with
  | nil => rfl
  | cons code rest => simp [tokensOf, scan_append rest h]

/-! ## The seed -/

/-- Everything before the seed is tokens, and everything after it is the
parameter. -/
theorem decode_of_toList {text : String} {body digits : List Char}
    {seed : Char}
    (htext : text.toList = body ++ seed :: digits)
    (hseed : seed.isDigit = false)
    (hdigits : ∀ c ∈ digits, c.isDigit = true) :
    decode text =
      { tokens := tokensOf body, seed? := some seed,
        parameter? := parameterOf? digits } := by
  have hreverse :
      text.toList.reverse = digits.reverse ++ seed :: body.reverse := by
    simp [htext]
  have hrun : ∀ c ∈ digits.reverse, c.isDigit = true := by
    simpa using hdigits
  have hrest : StopsRun (seed :: body.reverse) := by simpa using hseed
  have hsplit :
      splitTrailingDigits text.toList = (body ++ [seed], digits) := by
    simp [splitTrailingDigits, hreverse, takeWhile_run_append hrun hrest,
      dropWhile_run_append hrun hrest]
  simp [decode, hsplit]

theorem exists_seed {text : List Char} (h : ∃ c ∈ text, c.isDigit = false) :
    ∃ body seed digits, text = body ++ seed :: digits ∧
      seed.isDigit = false ∧ ∀ c ∈ digits, c.isDigit = true := by
  induction text with
  | nil => simp at h
  | cons c rest ih =>
      by_cases hrest : ∃ c ∈ rest, c.isDigit = false
      · obtain ⟨body, seed, digits, rfl, hseed, hdigits⟩ := ih hrest
        exact ⟨c :: body, seed, digits, rfl, hseed, hdigits⟩
      · have hdigits : ∀ c ∈ rest, c.isDigit = true := by simpa using hrest
        have hc : c.isDigit = false := by
          obtain ⟨d, hd, hplain⟩ := h
          rcases List.mem_cons.mp hd with rfl | hmem
          · exact hplain
          · exact absurd ⟨d, hmem, hplain⟩ hrest
        exact ⟨[], c, rest, rfl, hc, hdigits⟩

/-- A text that does not start with a digit keeps its meaning behind another
text. -/
theorem decode_append (before : String) {text : String} {c : Char}
    {rest : List Char}
    (htext : text.toList = c :: rest)
    (hc : c.isDigit = false) :
    decode (before ++ text) =
      { decode text with
        tokens := tokensOf before.toList ++ (decode text).tokens } := by
  have hplain : ∃ c ∈ text.toList, c.isDigit = false :=
    ⟨c, by simp [htext], hc⟩
  obtain ⟨body, seed, digits, hsplit, hseed, hdigits⟩ := exists_seed hplain
  have hbody : StopsRun body := by
    cases body with
    | nil => simp
    | cons first body =>
        obtain rfl : first = c := by
          simpa [htext, eq_comm] using congrArg List.head? hsplit
        simpa using hc
  have happend : (before ++ text).toList =
      (before.toList ++ body) ++ seed :: digits := by
    simp [hsplit]
  rw [decode_of_toList hsplit hseed hdigits,
    decode_of_toList happend hseed hdigits, tokensOf_append _ hbody]

/-! ## Numbers -/

/-- The number that a run of digits writes, zero for the empty run. -/
def value (run : List Char) : ℕ :=
  Nat.ofDigitChars 10 run 0

theorem numberOf_eq_value (run : List Char) : numberOf run = value run := by
  unfold numberOf value Nat.ofDigitChars
  simp only [Nat.mul_comm]

theorem argumentOf?_eq (run : List Char) :
    argumentOf? run = if run = [] then none
      else some (min (value run) maxNumber) := by
  simp [argumentOf?, numberOf_eq_value]

theorem parameterOf?_eq (run : List Char) :
    parameterOf? run = if value run ≤ maxNumber then some (value run)
      else none := by
  rw [parameterOf?, numberOf_eq_value]

/-! ## Spellings -/

/-- A text taken apart: codes, each with the run of digits after it, the
seed, and the run at the end.  Only the first code may be a digit. -/
structure Spelling where
  codes : List (Char × List Char)
  seed : Char
  digits : List Char
  runs_isDigit : ∀ entry ∈ codes, ∀ c ∈ entry.2, c.isDigit = true
  codes_not_isDigit : ∀ entry ∈ codes.tail, entry.1.isDigit = false
  seed_not_isDigit : seed.isDigit = false
  digits_isDigit : ∀ c ∈ digits, c.isDigit = true

/-- Codes with their runs, one after another. -/
def spell (codes : List (Char × List Char)) : List Char :=
  codes.flatMap fun entry => entry.1 :: entry.2

def Spelling.text (spelling : Spelling) : List Char :=
  spell spelling.codes ++ spelling.seed :: spelling.digits

/-- An argument beyond the largest number is cut off, and a parameter beyond
it is not read. -/
def Spelling.meaning (spelling : Spelling) : Notation where
  tokens := spelling.codes.map fun entry =>
    ⟨entry.1,
      if entry.2 = [] then none else some (min (value entry.2) maxNumber)⟩
  seed? := some spelling.seed
  parameter? :=
    if value spelling.digits ≤ maxNumber then some (value spelling.digits)
      else none

theorem stopsRun_spell {codes : List (Char × List Char)}
    (hcodes : ∀ entry ∈ codes, entry.1.isDigit = false) :
    StopsRun (spell codes) := by
  cases codes with
  | nil => simp [spell]
  | cons entry rest => simpa [spell] using hcodes entry (by simp)

/-- Each code with the run after it is a token. -/
theorem tokensOf_spell {codes : List (Char × List Char)}
    (hruns : ∀ entry ∈ codes, ∀ c ∈ entry.2, c.isDigit = true)
    (hcodes : ∀ entry ∈ codes.tail, entry.1.isDigit = false) :
    tokensOf (spell codes) =
      codes.map fun entry => ⟨entry.1, argumentOf? entry.2⟩ := by
  induction codes with
  | nil => rfl
  | cons entry rest ih =>
      obtain ⟨hrun, hrest⟩ := List.forall_mem_cons.mp hruns
      have hstop : StopsRun (spell rest) := stopsRun_spell hcodes
      have hspell :
          spell (entry :: rest) = entry.1 :: (entry.2 ++ spell rest) :=
        rfl
      rw [hspell, tokensOf_cons, takeWhile_run_append hrun hstop,
        dropWhile_run_append hrun hstop, ih hrest fun other hother =>
          hcodes other (List.mem_of_mem_tail hother)]
      rfl

theorem exists_spell (text : List Char) :
    ∃ run codes, text = run ++ spell codes ∧ (∀ c ∈ run, c.isDigit = true) ∧
      (∀ entry ∈ codes, ∀ c ∈ entry.2, c.isDigit = true) ∧
      ∀ entry ∈ codes, entry.1.isDigit = false := by
  induction text with
  | nil => exact ⟨[], [], rfl, by simp, by simp, by simp⟩
  | cons c rest ih =>
      obtain ⟨run, codes, hrest, hrun, hruns, hcodes⟩ := ih
      by_cases hc : c.isDigit
      · exact ⟨c :: run, codes, by simp [hrest],
          List.forall_mem_cons.mpr ⟨hc, hrun⟩, hruns, hcodes⟩
      · have hplain : c.isDigit = false := by simpa using hc
        exact ⟨[], (c, run) :: codes, by simp [spell, hrest], by simp,
          List.forall_mem_cons.mpr ⟨hrun, hruns⟩,
          List.forall_mem_cons.mpr ⟨hplain, hcodes⟩⟩

/-- Every text with a character that is no digit has a spelling. -/
theorem exists_spelling {text : List Char}
    (h : ∃ c ∈ text, c.isDigit = false) :
    ∃ spelling : Spelling, text = spelling.text := by
  obtain ⟨body, seed, digits, rfl, hseed, hdigits⟩ := exists_seed h
  cases body with
  | nil => exact ⟨⟨[], seed, digits, by simp, by simp, hseed, hdigits⟩, rfl⟩
  | cons code rest =>
      obtain ⟨run, codes, rfl, hrun, hruns, hcodes⟩ := exists_spell rest
      refine ⟨⟨(code, run) :: codes, seed, digits, ?_, hcodes, hseed,
        hdigits⟩, ?_⟩
      · exact List.forall_mem_cons.mpr ⟨hrun, hruns⟩
      · simp [Spelling.text, spell]

theorem decode_spelling {text : String} {spelling : Spelling}
    (htext : text.toList = spelling.text) :
    decode text = spelling.meaning := by
  rw [decode_of_toList htext spelling.seed_not_isDigit
      spelling.digits_isDigit,
    tokensOf_spell spelling.runs_isDigit spelling.codes_not_isDigit,
    Spelling.meaning, ← parameterOf?_eq]
  simp only [argumentOf?_eq]

theorem decode_of_digits {text : String}
    (h : ∀ c ∈ text.toList, c.isDigit = true) :
    decode text =
      { tokens := []
        seed? := none
        parameter? :=
          if value text.toList ≤ maxNumber then some (value text.toList)
            else none } := by
  have hrun : ∀ c ∈ text.toList.reverse, c.isDigit = true := by simpa using h
  have htake := takeWhile_run_append hrun stopsRun_nil
  have hdrop := dropWhile_run_append hrun stopsRun_nil
  rw [List.append_nil] at htake hdrop
  have hsplit : splitTrailingDigits text.toList = ([], text.toList) := by
    simp [splitTrailingDigits, htake, hdrop]
  rw [decode, hsplit, ← parameterOf?_eq]
  rfl

/-! ## Writing and reading -/

/-- The run writes the number, perhaps after some zeros. -/
def Decimal (n : ℕ) (run : List Char) : Prop :=
  ∃ zeros, run = List.replicate zeros '0' ++ Nat.toDigits 10 n

theorem value_replicate_zero (zeros : ℕ) :
    value (List.replicate zeros '0') = 0 := by
  unfold value
  induction zeros with
  | zero => rfl
  | succ zeros ih => simpa [List.replicate_succ, Nat.ofDigitChars] using ih

namespace Decimal

variable {n : ℕ} {run : List Char}

theorem value_eq (h : Decimal n run) : value run = n := by
  obtain ⟨zeros, rfl⟩ := h
  have hzeros : Nat.ofDigitChars 10 (List.replicate zeros '0') 0 = 0 :=
    value_replicate_zero zeros
  rw [value, Nat.ofDigitChars_append, hzeros, Nat.ofDigitChars_ten_toDigits]

theorem isDigit (h : Decimal n run) : ∀ c ∈ run, c.isDigit = true := by
  obtain ⟨zeros, rfl⟩ := h
  intro c hc
  rcases List.mem_append.mp hc with hzero | hdigit
  · rw [List.eq_of_mem_replicate hzero]
    rfl
  · exact Nat.isDigit_of_mem_toDigits (by omega) (by omega) hdigit

theorem ne_nil (h : Decimal n run) : run ≠ [] := by
  obtain ⟨zeros, rfl⟩ := h
  simp [Nat.toDigits_ne_nil]

theorem argumentOf?_eq
    (h : Decimal n run)
    (hn : n ≤ maxNumber) :
    argumentOf? run = some n := by
  simp [Notation.argumentOf?_eq, h.ne_nil, h.value_eq, hn]

theorem parameterOf?_eq
    (h : Decimal n run)
    (hn : n ≤ maxNumber) :
    parameterOf? run = some n := by
  simp [Notation.parameterOf?_eq, h.value_eq, hn]

end Decimal

/-- The token is written by its code and its argument, if there is one. -/
def Written (token : Token) (piece : List Char) : Prop :=
  ∃ run, piece = token.code :: run ∧
    (token.argument? = none ∧ run = [] ∨
      ∃ n, token.argument? = some n ∧ Decimal n run)

/-- Tokens written one after another have codes and runs that are read
back. -/
theorem exists_codes {tokens : List Token} {pieces : List (List Char)}
    (hwritten : List.Forall₂ Written tokens pieces)
    (hfits : ∀ token ∈ tokens, ∀ n ∈ token.argument?, n ≤ maxNumber) :
    ∃ codes : List (Char × List Char), pieces.flatten = spell codes ∧
      codes.map Prod.fst = tokens.map Token.code ∧
      (∀ entry ∈ codes, ∀ c ∈ entry.2, c.isDigit = true) ∧
      (codes.map fun entry => (⟨entry.1, argumentOf? entry.2⟩ : Token)) =
        tokens := by
  induction hwritten with
  | nil => exact ⟨[], rfl, rfl, by simp, rfl⟩
  | @cons token piece tokens pieces hfirst _ ih =>
      obtain ⟨hn, hfits⟩ := List.forall_mem_cons.mp hfits
      obtain ⟨codes, hspell, hcodes, hruns, htokens⟩ := ih hfits
      obtain ⟨run, rfl, hrun⟩ := hfirst
      have hread : (∀ c ∈ run, c.isDigit = true) ∧
          argumentOf? run = token.argument? := by
        rcases hrun with ⟨hnone, rfl⟩ | ⟨n, hsome, hdecimal⟩
        · exact ⟨by simp, hnone.symm⟩
        · rw [hsome]
          exact ⟨hdecimal.isDigit, hdecimal.argumentOf?_eq (hn n hsome)⟩
      refine ⟨(token.code, run) :: codes, ?_, ?_, ?_, ?_⟩
      · simp [spell, hspell]
      · simp [hcodes]
      · exact List.forall_mem_cons.mpr ⟨hread.1, hruns⟩
      · simp [htokens, hread.2]

/-- Written tokens are read back, followed by the seed and the parameter. -/
theorem decode_written {text : String} {tokens : List Token}
    {pieces : List (List Char)} {seed : Char} {parameter : ℕ}
    {digits : List Char}
    (htext : text.toList = pieces.flatten ++ seed :: digits)
    (hwritten : List.Forall₂ Written tokens pieces)
    (hcodes : ∀ token ∈ tokens.tail, token.code.isDigit = false)
    (hfits : ∀ token ∈ tokens, ∀ n ∈ token.argument?, n ≤ maxNumber)
    (hseed : seed.isDigit = false)
    (hparameter : parameter ≤ maxNumber)
    (hdigits : Decimal parameter digits ∨ parameter = 0 ∧ digits = []) :
    decode text =
      { tokens, seed? := some seed, parameter? := some parameter } := by
  obtain ⟨codes, hspell, hsame, hruns, htokens⟩ :=
    exists_codes hwritten hfits
  have hplain : ∀ entry ∈ codes.tail, entry.1.isDigit = false := by
    intro entry hentry
    have hmem : entry.1 ∈ (tokens.map Token.code).tail := by
      rw [← hsame, ← List.map_tail]
      exact List.mem_map_of_mem hentry
    rw [← List.map_tail] at hmem
    obtain ⟨token, htoken, hcode⟩ := List.mem_map.mp hmem
    rw [← hcode]
    exact hcodes token htoken
  have hread : (∀ c ∈ digits, c.isDigit = true) ∧
      parameterOf? digits = some parameter := by
    rcases hdigits with hdecimal | ⟨rfl, rfl⟩
    · exact ⟨hdecimal.isDigit, hdecimal.parameterOf?_eq hparameter⟩
    · exact ⟨by simp, rfl⟩
  rw [decode_of_toList (htext.trans (by rw [hspell])) hseed hread.1,
    tokensOf_spell hruns hplain, htokens, hread.2]

/-- What is written is read back, whatever zeros stand before a number, and
every text with a character that is no digit is a spelling and has its
meaning.  Without such a character there is only a parameter. -/
theorem decode_grammar :
    (∀ (text : String) (tokens : List Token) (pieces : List (List Char))
        (seed : Char) (parameter : ℕ) (digits : List Char),
      text.toList = pieces.flatten ++ seed :: digits →
      List.Forall₂ Written tokens pieces →
      (∀ token ∈ tokens.tail, token.code.isDigit = false) →
      (∀ token ∈ tokens, ∀ n ∈ token.argument?, n ≤ maxNumber) →
      seed.isDigit = false → parameter ≤ maxNumber →
      Decimal parameter digits ∨ parameter = 0 ∧ digits = [] →
      decode text =
        { tokens, seed? := some seed, parameter? := some parameter }) ∧
    (∀ text : String, (∃ c ∈ text.toList, c.isDigit = false) →
      ∃ spelling : Spelling, text.toList = spelling.text ∧
        decode text = spelling.meaning) ∧
    ∀ text : String, (∀ c ∈ text.toList, c.isDigit = true) →
      decode text =
        { tokens := []
          seed? := none
          parameter? :=
            if value text.toList ≤ maxNumber then some (value text.toList)
              else none } := by
  refine ⟨?_, ?_, fun _ => decode_of_digits⟩
  · intro text tokens pieces seed parameter digits htext hwritten hcodes
      hfits hseed hparameter
    exact decode_written htext hwritten hcodes hfits hseed hparameter
  · intro text hplain
    obtain ⟨spelling, hspelling⟩ := exists_spelling hplain
    exact ⟨spelling, hspelling, decode_spelling hspelling⟩

/-- A leading digit is a code, zeros in front of a number do not count, and a
number that is too large is cut off as an argument and not read as a
parameter. -/
theorem decode_grammar_samples :
    decode "34k007P012" =
        { tokens := [⟨'3', some 4⟩, ⟨'k', some 7⟩], seed? := some 'P',
          parameter? := some 12 } ∧
      (∃ spelling : Spelling,
        "k99999999999P4294967296".toList = spelling.text ∧
        decode "k99999999999P4294967296" = spelling.meaning) ∧
      (decode "42").parameter? = some 42 := by
  refine ⟨?_, ?_, ?_⟩
  · apply decode_grammar.1 _ _ [['3', '4'], ['k', '0', '0', '7']] 'P' 12
      ['0', '1', '2'] (by decide)
    · exact .cons ⟨['4'], rfl, .inr ⟨4, rfl, 0, by decide⟩⟩
        (.cons ⟨['0', '0', '7'], rfl, .inr ⟨7, rfl, 2, by decide⟩⟩ .nil)
    · decide
    · simp [maxNumber]
    · rfl
    · simp [maxNumber]
    · exact .inl ⟨1, by decide⟩
  · exact decode_grammar.2.1 _ ⟨'k', by simp, rfl⟩
  · rw [decode_grammar.2.2 "42" (by simp)]
    decide

end Notation
end Polyhedra
