import Mathlib
import Polyhedra.Notation.Evaluation
import Polyhedra.Proofs.Notation.Composition
import Polyhedra.Proofs.Notation.Grammar
import Polyhedra.Proofs.Operator.Dual
import Polyhedra.Proofs.Operator.Outcome
import Polyhedra.Proofs.Operator.Reflection
import Polyhedra.Proofs.Surface.Decision

/-!
# Names as notation

The name of a result is notation as well, for the operators that took effect.
A code without a meaning, a subdivision that refuses its parameters and a
subdivision that meets a face with other than three corners leave no trace in
it, and a dual takes back the dual before it.
-/

namespace Polyhedra

/-! ## The operators that take effect -/

/-- A subdivision that refuses its parameters, or that meets a face that is
no triangle. -/
def Operator.idle (mesh : Mesh) : Operator → Bool
  | subdivide factor tolerance maxFactor =>
    match mesh.subdivide factor tolerance maxFactor with
    | .error (.invalidParameter _ _) => true
    | _ => !decide mesh.faces.Triangular
  | _ => false

namespace Notation

/-- Adds an operator in front; a dual takes back a dual that it would stand
next to. -/
def push (token : Token) : List Token → List Token
  | [] => [token]
  | top :: rest =>
      if token.code = 'd' ∧ top.code = 'd' then rest
        else token :: top :: rest

theorem push_eq_cons {token : Token} {tokens : List Token}
    (h : ∀ top ∈ tokens.head?, ¬ (token.code = 'd' ∧ top.code = 'd')) :
    push token tokens = token :: tokens := by
  cases tokens with
  | nil => rfl
  | cons top rest => exact if_neg (h top rfl)

/-- The operators that take effect, in their canonical written form and
outermost first. -/
def effectiveTokens (presets : Presets) (start : Evaluation) :
    List Token → List Token
  | [] => []
  | token :: rest =>
    let before := effectiveTokens presets start rest
    match Operator.ofCode? token.code token.argument? presets,
      applyTokens presets rest start with
    | some op, .ok current =>
        if op.idle current.mesh then before else push op.token before
    | _, _ => before

end Notation

/-! ## Texts of tokens -/

/-- The code, followed by the digits of the argument. -/
def Token.text (token : Token) : List Char :=
  token.code :: (token.argument?.map (Nat.toDigits 10)).getD []

theorem Token.text_written (token : Token) :
    Notation.Written token token.text := by
  unfold Notation.Written Token.text
  cases token.argument? with
  | none => exact ⟨[], rfl, .inl ⟨rfl, rfl⟩⟩
  | some n => exact ⟨Nat.toDigits 10 n, rfl, .inr ⟨n, rfl, 0, rfl⟩⟩

namespace Operator

variable {mesh out : Mesh} {op : Operator}

theorem isDigit_code (op : Operator) : op.code.isDigit = false := by
  cases op <;> rfl

theorem eq_dual_of_code (h : op.code = 'd') : op = dual := by
  cases op <;> simp [code] at h ⊢

theorem token_of_dual (h : op.token.code = 'd') :
    op.token = ⟨'d', none⟩ := by
  rw [eq_dual_of_code h]
  rfl

theorem wordOf_toList (h : op.code ≠ 'd') (name : String) :
    (op.wordOf name).toList = op.token.text ++ name.toList := by
  rw [wordOf_eq h, token, Token.text]
  cases op.argument? <;> simp

theorem argument?_of_ofCode? {token : Token} {presets : Presets}
    (h : ofCode? token.code token.argument? presets = some op)
    {n : ℕ}
    (hn : n ∈ op.argument?) :
    n ∈ token.argument? ∨ n = defaultSubdivision := by
  unfold ofCode? at h
  cases hargument : token.argument? with
  | none => split at h <;> cases h <;> simp_all [argument?]
  | some k => split at h <;> cases h <;> simp_all [argument?]

/-- A subdivision that takes effect writes its factor, like the other
operators their arguments. -/
theorem name_of_transform
    (h : op.transform mesh = .ok out)
    (hidle : op.idle mesh = false) :
    out.name = op.wordOf mesh.name := by
  by_cases hcode : op.code = 'u'
  · cases op with
    | subdivide factor tolerance maxFactor =>
        have hout : mesh.subdivide factor tolerance maxFactor = .ok out := h
        have htriangular : mesh.faces.Triangular := by
          simpa [idle, hout] using hidle
        rcases mesh.subdivide_cases factor tolerance maxFactor with
          ⟨subject, explanation, hrefused⟩ | ⟨hplain, -⟩ | ⟨-, -, herror⟩ |
            ⟨-, -, hdone⟩
        · rw [hout] at hrefused
          cases hrefused
        · exact absurd htriangular hplain
        · rw [hout] at herror
          cases herror
        · obtain rfl := Except.ok.inj (hout.symm.trans hdone)
          rfl
    | _ => simp [code] at hcode
  · exact (transform_makes hcode).name_eq out h

theorem eq_of_idle
    (hidle : op.idle mesh = true)
    (h : op.transform mesh = .ok out) : out = mesh := by
  cases op with
  | subdivide factor tolerance maxFactor =>
      have hout : mesh.subdivide factor tolerance maxFactor = .ok out := h
      have hplain : ¬ mesh.faces.Triangular := by
        simpa [idle, hout] using hidle
      rcases mesh.subdivide_cases factor tolerance maxFactor with
        ⟨subject, explanation, hrefused⟩ | ⟨-, hsame⟩ | ⟨htriangular, -⟩ |
          ⟨htriangular, -⟩
      · rw [hout] at hrefused
        cases hrefused
      · exact Except.ok.inj (hout.symm.trans hsame)
      · exact absurd htriangular hplain
      · exact absurd htriangular hplain
  | _ => simp [idle] at hidle

theorem idle_of_invalidParameter {subject explanation : String}
    (h :
      op.transform mesh = .error (.invalidParameter subject explanation)) :
    op.idle mesh = true := by
  obtain ⟨hcode, -⟩ := of_invalidParameter h
  cases op with
  | subdivide factor tolerance maxFactor =>
      have hrefused : mesh.subdivide factor tolerance maxFactor =
          .error (.invalidParameter subject explanation) := h
      simp [idle, hrefused]
  | _ => simp [code] at hcode

end Operator

/-! ## The invariant -/

namespace Notation

/-- The name consists of the tokens and the word of the seed; the tokens are
written by operators, with arguments that can be read back, and no two duals
stand next to each other. -/
structure Names (seed : Seed) (parameter : ℕ) (tokens : List Token)
    (name : String) : Prop where
  toList_eq : name.toList =
    (tokens.map Token.text).flatten ++ (seed.word parameter).toList
  written : ∀ token ∈ tokens, ∃ op : Operator, token = op.token
  fits : ∀ token ∈ tokens, ∀ n ∈ token.argument?, n ≤ maxNumber
  noTwoDuals :
    tokens.IsChain fun outer inner => ¬ (outer.code = 'd' ∧ inner.code = 'd')

theorem seed_word_toList (seed : Seed) (parameter : ℕ) :
    ∃ digits, (seed.word parameter).toList = seed.letter :: digits ∧
      (Decimal (if seed.readsParameter then parameter else 0) digits ∨
        (if seed.readsParameter then parameter else 0) = 0 ∧
        digits = []) := by
  unfold Seed.word
  by_cases hreads : seed.readsParameter
  · by_cases hpos : 0 < parameter
    · refine ⟨Nat.toDigits 10 parameter, ?_, .inl ⟨0, ?_⟩⟩
      · simp [hreads, hpos]
      · simp [hreads]
    · refine ⟨[], ?_, .inr ⟨?_, rfl⟩⟩
      · simp [hreads, hpos]
      · simp only [hreads, if_true]
        omega
  · refine ⟨[], ?_, .inr ⟨?_, rfl⟩⟩ <;> simp [hreads]

namespace Names

variable {seed : Seed} {parameter : ℕ} {tokens : List Token} {name : String}

theorem initial (seed : Seed) (parameter : ℕ) :
    Names seed parameter [] (seed.word parameter) where
  toList_eq := rfl
  written := by simp
  fits := by simp
  noTwoDuals := .nil

/-- The first character of a name is the code of the outermost operator or
the letter of the seed, which is never that of a dual. -/
theorem head_eq_dual
    (h : Names seed parameter tokens name)
    {chars : List Char}
    (hname : name.toList = 'd' :: chars) :
    ∃ rest, tokens = ⟨'d', none⟩ :: rest ∧
      chars =
        (rest.map Token.text).flatten ++ (seed.word parameter).toList := by
  cases tokens with
  | nil =>
      obtain ⟨digits, hword, -⟩ := seed_word_toList seed parameter
      have hletter : seed.letter = 'd' := by
        have hlist := h.toList_eq
        rw [hname, hword] at hlist
        exact (List.cons.inj hlist).1.symm
      cases seed <;> simp [Seed.letter] at hletter
  | cons token rest =>
      obtain ⟨op, rfl⟩ := h.written token (by simp)
      have hlist := h.toList_eq
      rw [hname] at hlist
      have hcode : op.token.code = 'd' := (List.cons.inj hlist).1.symm
      rw [Operator.token_of_dual hcode] at hlist ⊢
      exact ⟨rest, rfl, (List.cons.inj hlist).2⟩

theorem cons
    (h : Names seed parameter tokens name)
    {op : Operator}
    (hfits : ∀ n ∈ op.argument?, n ≤ maxNumber)
    (hdual : ∀ top ∈ tokens.head?, ¬ (op.code = 'd' ∧ top.code = 'd'))
    {next : String}
    (hnext : next.toList = op.token.text ++ name.toList) :
    Names seed parameter (op.token :: tokens) next where
  toList_eq := by simp [hnext, h.toList_eq]
  written := List.forall_mem_cons.mpr ⟨⟨op, rfl⟩, h.written⟩
  fits := List.forall_mem_cons.mpr ⟨hfits, h.fits⟩
  noTwoDuals := List.isChain_cons.mpr ⟨hdual, h.noTwoDuals⟩

theorem push
    (h : Names seed parameter tokens name)
    {op : Operator}
    (hfits : ∀ n ∈ op.argument?, n ≤ maxNumber) :
    Names seed parameter (Notation.push op.token tokens)
      (op.wordOf name) := by
  by_cases hcode : op.code = 'd'
  · obtain rfl := Operator.eq_dual_of_code hcode
    by_cases hdual : ∃ chars, name.toList = 'd' :: chars
    · obtain ⟨chars, hchars⟩ := hdual
      obtain ⟨rest, rfl, hrest⟩ := h.head_eq_dual hchars
      have hword : (Operator.dual.wordOf name).toList = chars := by
        change (Word.dual name).toList = chars
        rw [Word.dual_of_cons hchars, String.toList_ofList]
      exact
        { toList_eq := hword.trans hrest
          written := fun token htoken => h.written token (.tail _ htoken)
          fits := fun token htoken => h.fits token (.tail _ htoken)
          noTwoDuals := h.noTwoDuals.tail }
    · have hword : Operator.dual.wordOf name = "d" ++ name :=
        Word.dual_of_not_cons fun rest hrest => hdual ⟨rest, hrest⟩
      have htop : ∀ top ∈ tokens.head?,
          ¬ (Operator.dual.code = 'd' ∧ top.code = 'd') := by
        intro top htop hboth
        obtain ⟨rest, rfl⟩ := List.head?_eq_some_iff.mp htop
        have hname := h.toList_eq
        rw [List.map_cons, List.flatten_cons, Token.text, hboth.2,
          List.cons_append] at hname
        exact hdual ⟨_, hname⟩
      rw [push_eq_cons htop]
      refine h.cons hfits htop ?_
      simp [hword, Token.text, Operator.token, Operator.argument?,
        Operator.code]
  · have htop : ∀ top ∈ tokens.head?, ¬ (op.code = 'd' ∧ top.code = 'd') :=
      fun _ _ hboth => hcode hboth.1
    rw [push_eq_cons htop]
    exact h.cons hfits htop (Operator.wordOf_toList hcode name)

end Names

/-! ## Runs -/

variable {presets : Presets} {seed : Seed} {parameter : ℕ}

theorem argumentOf?_le {digits : List Char} {n : ℕ}
    (h : n ∈ argumentOf? digits) : n ≤ maxNumber := by
  rw [argumentOf?_eq] at h
  split at h
  · cases h
  · obtain rfl := Option.some.inj h
    exact min_le_right _ _

theorem scan_fits (text : List Char) :
    ∀ token ∈ (scan text).2, ∀ n ∈ token.argument?, n ≤ maxNumber := by
  induction text with
  | nil => simp [scan]
  | cons c rest ih =>
      by_cases hdigit : c.isDigit
      · simpa [scan, hdigit] using ih
      · have hscan : (scan (c :: rest)).2 =
            ⟨c, argumentOf? (scan rest).1⟩ :: (scan rest).2 := by
          simp [scan, hdigit]
        rw [hscan]
        exact List.forall_mem_cons.mpr ⟨fun _ => argumentOf?_le, ih⟩

theorem tokensOf_fits (text : List Char) :
    ∀ token ∈ tokensOf text, ∀ n ∈ token.argument?, n ≤ maxNumber := by
  cases text with
  | nil => simp [tokensOf]
  | cons code rest =>
      exact List.forall_mem_cons.mpr
        ⟨fun _ => argumentOf?_le, scan_fits rest⟩

/-- A token that is not an error has made its mesh, or has left the mesh as
it was. -/
theorem mesh_of_applyToken {token : Token} {current next : Evaluation}
    {op : Operator}
    (hop : Operator.ofCode? token.code token.argument? presets = some op)
    (h : applyToken presets token current = .ok next) :
    op.idle current.mesh = true ∧ next.mesh = current.mesh ∨
      op.idle current.mesh = false ∧
      op.transform current.mesh = .ok next.mesh := by
  unfold applyToken at h
  simp only [hop] at h
  cases hout : op.transform current.mesh with
  | ok out =>
      simp only [hout] at h
      obtain rfl := Except.ok.inj h
      cases hidle : op.idle current.mesh with
      | true => exact .inl ⟨rfl, Operator.eq_of_idle hidle hout⟩
      | false => exact .inr ⟨rfl, rfl⟩
  | error error =>
      cases error with
      | invalidParameter subject explanation =>
          simp only [hout] at h
          obtain rfl := Except.ok.inj h
          exact .inl ⟨Operator.idle_of_invalidParameter hout, rfl⟩
      | _ => simp [hout] at h

theorem applyToken_names {token : Token} {current next : Evaluation}
    {tokens : List Token}
    (h : applyToken presets token current = .ok next)
    (hnames : Names seed parameter tokens current.mesh.name)
    (hfits : ∀ n ∈ token.argument?, n ≤ maxNumber) :
    Names seed parameter
      (match Operator.ofCode? token.code token.argument? presets with
        | none => tokens
        | some op =>
            if op.idle current.mesh then tokens else push op.token tokens)
      next.mesh.name := by
  cases hop : Operator.ofCode? token.code token.argument? presets with
  | none =>
      unfold applyToken at h
      simp only [hop] at h
      obtain rfl := Except.ok.inj h
      exact hnames
  | some op =>
      have hop_fits : ∀ n ∈ op.argument?, n ≤ maxNumber := by
        intro n hn
        rcases Operator.argument?_of_ofCode? hop hn with hargument | rfl
        · exact hfits n hargument
        · simp [defaultSubdivision, maxNumber]
      rcases mesh_of_applyToken hop h with ⟨hidle, hsame⟩ | ⟨hidle, hout⟩
      · simpa [hidle, hsame] using hnames
      · rw [Operator.name_of_transform hout hidle]
        simpa [hidle] using hnames.push hop_fits

/-- The name after any number of operators. -/
theorem applyTokens_names {tokens : List Token} {start result : Evaluation}
    (h : applyTokens presets tokens start = .ok result)
    (hstart : Names seed parameter [] start.mesh.name)
    (hfits : ∀ token ∈ tokens, ∀ n ∈ token.argument?, n ≤ maxNumber) :
    Names seed parameter (effectiveTokens presets start tokens)
      result.mesh.name := by
  induction tokens generalizing result with
  | nil =>
      obtain rfl : start = result := Except.ok.inj h
      exact hstart
  | cons token rest ih =>
      obtain ⟨hfirst, hrest⟩ := List.forall_mem_cons.mp hfits
      rw [applyTokens_cons] at h
      obtain ⟨current, hcurrent, hnext⟩ := Except.bind_eq_ok_iff.mp h
      have hstep := applyToken_names hnext (ih hcurrent hrest) hfirst
      unfold effectiveTokens
      rw [hcurrent]
      cases hop : Operator.ofCode? token.code token.argument? presets <;>
        simpa [hop] using hstep

theorem decode_of_names {tokens : List Token} {name : String}
    (h : Names seed parameter tokens name)
    (hparameter : parameter ≤ maxNumber) :
    decode name =
      { tokens
        seed? := some seed.letter
        parameter? :=
          some (if seed.readsParameter then parameter else 0) } := by
  obtain ⟨digits, hword, hdigits⟩ := seed_word_toList seed parameter
  have htext := h.toList_eq
  rw [hword] at htext
  have hpieces : List.Forall₂ Written tokens (tokens.map Token.text) :=
    List.forall₂_map_right_iff.mpr
      (List.forall₂_same.mpr fun token _ => token.text_written)
  have hcodes : ∀ token ∈ tokens.tail, token.code.isDigit = false := by
    intro token htoken
    obtain ⟨op, rfl⟩ := h.written token (List.mem_of_mem_tail htoken)
    exact op.isDigit_code
  have hletter : seed.letter.isDigit = false := by
    cases seed <;> rfl
  have hfits :
      (if seed.readsParameter then parameter else 0) ≤ maxNumber := by
    split <;> omega
  exact decode_written htext hpieces hcodes h.fits hletter hfits hdigits

theorem parameter_le {text : String}
    (h : (decode text).parameter? = some parameter) :
    parameter ≤ maxNumber := by
  have hrun :
      parameterOf? (splitTrailingDigits text.toList).2 = some parameter :=
    h
  rw [parameterOf?_eq] at hrun
  split at hrun
  · obtain rfl := Option.some.inj hrun
    assumption
  · cases hrun

theorem letter_of_seedRequest {seed? : Option Char} {n : ℕ}
    (h : seedRequest presets seed? parameter = .request seed n) :
    seed? = some seed.letter := by
  unfold seedRequest at h
  cases seed? with
  | none => cases h
  | some letter =>
      cases hseed : Seed.ofLetter? letter with
      | none => simp [hseed] at h
      | some found =>
          have hletter : found.letter = letter := by
            simpa using List.find?_some hseed
          by_cases hsides : found.countsSides ∧ presets.maxSides < parameter
          · simp [hseed, hsides] at h
          · simp only [hseed, if_neg hsides, SeedRequest.request.injEq] at h
            rw [← hletter, h.1]

end Notation

theorem name_of_standardSeed {seed : Seed} {n : ℕ} {mesh : Mesh}
    (h : standardSeed seed n = .ok mesh) : mesh.name = seed.word n := by
  obtain ⟨solid, -, hmesh⟩ := Except.bind_eq_ok_iff.mp h
  obtain rfl := Except.ok.inj hmesh
  rfl

/-- The name of a result, read as notation, gives the operators that took
effect, the seed and its parameter. -/
theorem decode_name {presets : Presets} {text : String} {result : Evaluation}
    {parameter : ℕ} {seed : Seed} {mesh : Mesh}
    (hparameter : (Notation.decode text).parameter? = some parameter)
    (hrequest :
      Notation.seedRequest presets (Notation.decode text).seed? parameter =
        .request seed parameter)
    (hmesh : standardSeed seed parameter = .ok mesh)
    (hresult : evaluate presets text = .ok result) :
    Notation.decode result.mesh.name =
        { tokens :=
            Notation.effectiveTokens presets { mesh, diagnostics := [] }
              (Notation.decode text).tokens
          seed? := (Notation.decode text).seed?
          parameter? :=
            some (if seed.readsParameter then parameter else 0) } ∧
      (Notation.decode result.mesh.name).tokens.IsChain
        fun outer inner => ¬ (outer.code = 'd' ∧ inner.code = 'd') := by
  have hopening :
      (Notation.decode text).opening presets standardSeed = .seed mesh :=
    Notation.opening_eq_seed hparameter hrequest hmesh
  have hrun :
      evaluateWith (m := Id) presets standardSeed text = .ok result :=
    hresult
  rw [evaluateWith_eq, hopening] at hrun
  obtain ⟨last, hlast, hrefresh⟩ :=
    Except.bind_eq_ok_iff.mp (Except.mapError_eq_ok_iff.mp hrun)
  have hname : result.mesh.name = last.mesh.name := by
    rw [Evaluation.eq_of_refresh hrefresh]
  have hstart : Notation.Names seed parameter [] mesh.name := by
    rw [name_of_standardSeed hmesh]
    exact .initial seed parameter
  have hnames :=
    Notation.applyTokens_names hlast hstart (Notation.tokensOf_fits _)
  rw [hname,
    Notation.decode_of_names hnames (Notation.parameter_le hparameter),
    Notation.letter_of_seedRequest hrequest]
  exact ⟨rfl, hnames.noTwoDuals⟩

theorem exists_standardSeed_tetrahedron :
    ∃ mesh, standardSeed .tetrahedron 0 = .ok mesh ∧ mesh.Polyhedral ∧
      mesh.Fits := by
  refine ⟨_, rfl, ?_, ?_⟩
  · have hfaces : (StandardSeed.turnedOutward ((StandardSeed.centered
          Platonic.tetrahedron).named (Seed.tetrahedron.word 0))).faces =
        Platonic.tetrahedron.faces := by
      decide +kernel
    change Surface.Polyhedral _ _
    rw [hfaces]
    exact Surface.polyhedral_tetrahedron
  · change 4 + 4 ≤ IndexKey.maxIndex
    decide

/-- The two duals cancel across a subdivision that is refused, and a
reflection drops its argument. -/
theorem decode_name_tetrahedron :
    ∃ result, evaluate {} "r5du0dT" = .ok result ∧
      Notation.decode result.mesh.name =
        { tokens := [⟨'r', none⟩], seed? := some 'T',
          parameter? := some 0 } := by
  obtain ⟨mesh, hmesh, hpoly, hfits⟩ := exists_standardSeed_tetrahedron
  let start : Evaluation := { mesh, diagnostics := [] }
  have hdecode : Notation.decode "r5du0dT" =
      { tokens := [⟨'r', some 5⟩, ⟨'d', none⟩, ⟨'u', some 0⟩, ⟨'d', none⟩]
        seed? := some 'T'
        parameter? := some 0 } := by
    decide
  obtain ⟨out, hout, hdual⟩ :=
    hpoly.exists_dual (by unfold Mesh.Fits at hfits; omega)
      (by unfold Mesh.Fits at hfits; omega)
  have houtFits : out.Fits := by
    unfold Mesh.Fits at hfits ⊢
    rw [hdual.vertexCount, hdual.faceCount]
    omega
  obtain ⟨back, hback, hbackPoly, -⟩ :=
    (hdual.polyhedral hpoly).dual houtFits
  -- the run, one token after the other
  obtain ⟨first, hfirst, rfl⟩ :
      ∃ first, Notation.applyToken {} ⟨'d', none⟩ start = .ok first ∧
        first.mesh = out :=
    ⟨_, Notation.applyToken_of_transform rfl hout, rfl⟩
  have hone : Notation.applyTokens {} [⟨'d', none⟩] start = .ok first := by
    rw [Notation.applyTokens_cons]
    exact hfirst
  obtain ⟨second, hsecond, hsame⟩ :
      ∃ second, Notation.applyTokens {} [⟨'u', some 0⟩, ⟨'d', none⟩] start =
        .ok second ∧ second.mesh = first.mesh := by
    rw [Notation.applyTokens_cons, hone]
    exact ⟨_, rfl, rfl⟩
  obtain ⟨third, hthird, hback⟩ :
      ∃ third, Notation.applyToken {} ⟨'d', none⟩ second = .ok third ∧
        third.mesh = back :=
    ⟨_, Notation.applyToken_of_transform rfl (hsame ▸ hback), rfl⟩
  have hthree : Notation.applyTokens {}
      [⟨'d', none⟩, ⟨'u', some 0⟩, ⟨'d', none⟩] start = .ok third := by
    rw [Notation.applyTokens_cons, hsecond]
    exact hthird
  obtain ⟨last, hlast, hreflect⟩ : ∃ last, Notation.applyTokens {}
        [⟨'r', some 5⟩, ⟨'d', none⟩, ⟨'u', some 0⟩, ⟨'d', none⟩] start =
      .ok last ∧ last.mesh = third.mesh.reflect := by
    rw [Notation.applyTokens_cons, hthree]
    exact ⟨_, rfl, rfl⟩
  have heffective : Notation.effectiveTokens {} start
        [⟨'r', some 5⟩, ⟨'d', none⟩, ⟨'u', some 0⟩, ⟨'d', none⟩] =
      [⟨'r', none⟩] := by
    simp only [Notation.effectiveTokens, hone, hsecond, hthree]
    rfl
  have hrange : last.mesh.InRange := by
    rw [hreflect, hback]
    exact hbackPoly.reflect.1.inRange
  have hparameter : (Notation.decode "r5du0dT").parameter? = some 0 := by
    rw [hdecode]
  have hrequest :
      Notation.seedRequest {} (Notation.decode "r5du0dT").seed? 0 =
        .request .tetrahedron 0 := by
    rw [hdecode]
    rfl
  have hresult : evaluate {} "r5du0dT" = .ok { last with
      mesh :=
        { last.mesh with attributes? := some last.mesh.attributes } } := by
    change evaluateWith (m := Id) {} standardSeed "r5du0dT" = _
    rw [evaluateWith_eq, Notation.opening_eq_seed hparameter hrequest hmesh,
      hdecode]
    change (Notation.applyTokens {} _ start >>= Evaluation.refresh).mapError
      NotationError.mesh = _
    rw [hlast]
    change last.refresh.mapError NotationError.mesh = _
    rw [Evaluation.refresh_of_inRange hrange]
    rfl
  refine ⟨_, hresult, ?_⟩
  rw [(decode_name hparameter hrequest hmesh hresult).1, hdecode, heffective]
  rfl

end Polyhedra
