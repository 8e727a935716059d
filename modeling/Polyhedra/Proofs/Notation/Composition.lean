import Mathlib
import Polyhedra.Notation.Evaluation
import Polyhedra.Proofs.Notation.Grammar
import Polyhedra.Proofs.Operator.Outcome

/-!
# Texts put together

A text that does not start with a digit is evaluated first, whatever is
written before it.  What is written before it then acts on the result, and
neither the diagnostics raised so far nor the attributes computed at the end
of the first evaluation have an influence on that.
-/

namespace Polyhedra

namespace Evaluation

/-- The evaluation with earlier diagnostics in front of its own. -/
def after (before : Diagnostics) (evaluation : Evaluation) : Evaluation :=
  { evaluation with diagnostics := before ++ evaluation.diagnostics }

theorem refresh_of_inRange {evaluation : Evaluation}
    (h : evaluation.mesh.InRange) :
    evaluation.refresh = .ok { evaluation with
      mesh :=
        { evaluation.mesh with
          attributes? := some evaluation.mesh.attributes } } := by
  unfold refresh Mesh.refresh
  rw [Mesh.requireInRange_bind h]
  rfl

theorem refresh_of_not_inRange {evaluation : Evaluation}
    (h : ¬ evaluation.mesh.InRange) :
    evaluation.refresh = .error .cornerOutOfRange := by
  unfold refresh Mesh.refresh
  rw [Mesh.requireInRange_bind_error h]
  rfl

theorem eq_of_refresh {evaluation result : Evaluation}
    (h : evaluation.refresh = .ok result) :
    result = { evaluation with
      mesh :=
        { evaluation.mesh with
          attributes? := some evaluation.mesh.attributes } } := by
  by_cases hrange : evaluation.mesh.InRange
  · rw [refresh_of_inRange hrange] at h
    exact (Except.ok.inj h).symm
  · rw [refresh_of_not_inRange hrange] at h
    cases h

end Evaluation

namespace Notation

variable {presets : Presets} {token : Token} {current : Evaluation}

/-! ## One token -/

theorem applyToken_of_unknown
    (h : Operator.ofCode? token.code token.argument? presets = none) :
    ∃ warning : Diagnostic, warning.severity = .warning ∧
      applyToken presets token current = .ok
      { current with diagnostics := current.diagnostics ++ [warning] } := by
  unfold applyToken
  rw [h]
  exact ⟨_, rfl, rfl⟩

theorem applyToken_of_invalidParameter {op : Operator}
    {subject explanation : String}
    (hop : Operator.ofCode? token.code token.argument? presets = some op)
    (h : op.transform current.mesh =
      .error (.invalidParameter subject explanation)) :
    ∃ warning : Diagnostic, warning.severity = .warning ∧
      applyToken presets token current = .ok
      { current with diagnostics := current.diagnostics ++ [warning] } := by
  obtain ⟨-, hreads, hremarks⟩ := Operator.of_invalidParameter h
  have hargument : argumentRemark token op = [] := by
    unfold argumentRemark
    cases token.argument? <;> simp [hreads]
  unfold applyToken
  simp only [hop, h, hargument, hremarks, List.append_nil]
  exact ⟨_, rfl, rfl⟩

theorem applyToken_of_transform {op : Operator} {out : Mesh}
    (hop : Operator.ofCode? token.code token.argument? presets = some op)
    (h : op.transform current.mesh = .ok out) :
    applyToken presets token current = .ok
      { mesh := out
        diagnostics := current.diagnostics ++ argumentRemark token op ++
          op.remarks current.mesh } := by
  unfold applyToken
  simp only [hop, h]

theorem applyToken_of_failure {op : Operator} {error : MeshError}
    (hop : Operator.ofCode? token.code token.argument? presets = some op)
    (h : op.transform current.mesh = .error error)
    (hfailure : ∀ subject explanation,
      error ≠ .invalidParameter subject explanation) :
    applyToken presets token current = .error error := by
  unfold applyToken
  simp only [hop, h]

/-- What one token makes of an evaluation.  A token that is skipped keeps the
mesh and adds one warning to the diagnostics; any other token replaces the
mesh by the one that its operator returns, or fails as the operator does. -/
inductive Acts (presets : Presets) (token : Token) (current : Evaluation) :
    Except MeshError Evaluation → Prop
  | unknown {warning : Diagnostic}
      (hop : Operator.ofCode? token.code token.argument? presets = none)
      (hwarning : warning.severity = .warning) :
      Acts presets token current (.ok
        { current with diagnostics := current.diagnostics ++ [warning] })
  | refused {op : Operator} {subject explanation : String}
      {warning : Diagnostic}
      (hop : Operator.ofCode? token.code token.argument? presets = some op)
      (h : op.transform current.mesh =
        .error (.invalidParameter subject explanation))
      (hwarning : warning.severity = .warning) :
      Acts presets token current (.ok
        { current with diagnostics := current.diagnostics ++ [warning] })
  | applied {op : Operator} {out : Mesh}
      (hop : Operator.ofCode? token.code token.argument? presets = some op)
      (h : op.transform current.mesh = .ok out) :
      Acts presets token current (.ok
        { mesh := out
          diagnostics := current.diagnostics ++ argumentRemark token op ++
            op.remarks current.mesh })
  | failed {op : Operator} {error : MeshError}
      (hop : Operator.ofCode? token.code token.argument? presets = some op)
      (h : op.transform current.mesh = .error error)
      (hfailure : ∀ subject explanation,
        error ≠ .invalidParameter subject explanation) :
      Acts presets token current (.error error)

theorem acts_applyToken :
    Acts presets token current (applyToken presets token current) := by
  cases hop : Operator.ofCode? token.code token.argument? presets with
  | none =>
      obtain ⟨warning, hwarning, happly⟩ := applyToken_of_unknown hop
      rw [happly]
      exact .unknown hop hwarning
  | some op =>
      cases h : op.transform current.mesh with
      | ok out =>
          rw [applyToken_of_transform hop h]
          exact .applied hop h
      | error error =>
          by_cases hrefused : ∃ subject explanation,
              error = .invalidParameter subject explanation
          · obtain ⟨subject, explanation, rfl⟩ := hrefused
            obtain ⟨warning, hwarning, happly⟩ :=
              applyToken_of_invalidParameter hop h
            rw [happly]
            exact .refused hop h hwarning
          · have hfailure : ∀ subject explanation,
                error ≠ .invalidParameter subject explanation :=
              fun _ _ heq => hrefused ⟨_, _, heq⟩
            rw [applyToken_of_failure hop h hfailure]
            exact .failed hop h hfailure

/-- Diagnostics raised earlier stay in front. -/
theorem applyToken_after (before : Diagnostics) :
    applyToken presets token (current.after before) =
      (applyToken presets token current).map (Evaluation.after before) := by
  unfold applyToken Evaluation.after
  cases hop : Operator.ofCode? token.code token.argument? presets with
  | none => simp [Except.map]
  | some op =>
      cases hmesh : op.transform current.mesh with
      | ok mesh => simp [Except.map, hmesh]
      | error error => cases error <;> simp [Except.map, hmesh]

/-- Stored attributes have no influence on the result but for its own stored
attributes. -/
theorem applyToken_stored :
    (applyToken presets token current.stored).map Evaluation.stored =
      (applyToken presets token current).map Evaluation.stored := by
  unfold applyToken
  cases hop : Operator.ofCode? token.code token.argument? presets with
  | none => rfl
  | some op =>
      have hstored : current.stored.mesh = current.mesh.bare := rfl
      have hsame := op.transform_bare current.mesh
      simp only [hstored, op.remarks_bare]
      cases hbare : op.transform current.mesh.bare with
      | ok bare =>
          cases hfull : op.transform current.mesh with
          | ok full =>
              rw [hbare, hfull] at hsame
              have hmesh : bare.bare = full.bare := Except.ok.inj hsame
              change Except.ok
                ({ mesh := bare.bare, diagnostics := _ } : Evaluation) = _
              rw [hmesh]
              rfl
          | error error => simp [hbare, hfull, Except.map] at hsame
      | error error =>
          cases hfull : op.transform current.mesh with
          | ok full => simp [hbare, hfull, Except.map] at hsame
          | error other =>
              obtain rfl : error = other := by
                simpa [hbare, hfull, Except.map] using hsame
              cases error <;> rfl

theorem applyToken_of_not_inRange (h : ¬ current.mesh.InRange) :
    applyToken presets token current = .error .cornerOutOfRange ∨
      ∃ next, applyToken presets token current = .ok next ∧
        ¬ next.mesh.InRange := by
  cases hop : Operator.ofCode? token.code token.argument? presets with
  | none =>
      obtain ⟨warning, -, happly⟩ := applyToken_of_unknown hop
      exact .inr ⟨_, happly, h⟩
  | some op =>
      rcases op.transform_of_not_inRange h with hrange |
        ⟨out, hout, hrange⟩ | ⟨subject, explanation, hrefused⟩
      · left
        unfold applyToken
        simp only [hop, hrange]
      · right
        unfold applyToken
        simp only [hop, hout]
        exact ⟨_, rfl, hrange⟩
      · obtain ⟨warning, -, happly⟩ :=
          applyToken_of_invalidParameter hop hrefused
        exact .inr ⟨_, happly, h⟩

/-! ## Lists of tokens -/

variable {tokens : List Token}

theorem applyTokens_cons (presets : Presets) (token : Token)
    (rest : List Token) (start : Evaluation) :
    applyTokens presets (token :: rest) start =
      applyTokens presets rest start >>= applyToken presets token :=
  List.foldrM_cons

theorem applyTokens_append (presets : Presets) (outer inner : List Token)
    (start : Evaluation) :
    applyTokens presets (outer ++ inner) start =
      applyTokens presets inner start >>= applyTokens presets outer :=
  List.foldrM_append

theorem applyTokens_after (before : Diagnostics) (start : Evaluation) :
    applyTokens presets tokens (start.after before) =
      (applyTokens presets tokens start).map (Evaluation.after before) := by
  induction tokens with
  | nil => rfl
  | cons token rest ih =>
      rw [applyTokens_cons, applyTokens_cons, ih]
      cases applyTokens presets rest start with
      | ok current => exact applyToken_after before
      | error error => rfl

theorem applyTokens_stored (start : Evaluation) :
    (applyTokens presets tokens start.stored).map Evaluation.stored =
      (applyTokens presets tokens start).map Evaluation.stored := by
  induction tokens with
  | nil => rfl
  | cons token rest ih =>
      -- both runs have reached the same state up to attributes, which the
      -- next token does not see
      have hstep : ∀ x : Except MeshError Evaluation,
          (x >>= applyToken presets token).map Evaluation.stored =
            (x.map Evaluation.stored >>= applyToken presets token).map
              Evaluation.stored := by
        intro x
        cases x with
        | ok current => exact applyToken_stored.symm
        | error error => rfl
      rw [applyTokens_cons, applyTokens_cons, hstep, ih, ← hstep]

theorem applyTokens_of_not_inRange {start : Evaluation}
    (h : ¬ start.mesh.InRange) :
    applyTokens presets tokens start = .error .cornerOutOfRange ∨
      ∃ result, applyTokens presets tokens start = .ok result ∧
        ¬ result.mesh.InRange := by
  induction tokens with
  | nil => exact .inr ⟨start, rfl, h⟩
  | cons token rest ih =>
      rw [applyTokens_cons]
      rcases ih with herror | ⟨current, hcurrent, hrange⟩
      · rw [herror]
        exact .inl rfl
      · rw [hcurrent]
        exact applyToken_of_not_inRange hrange

/-- The attributes in the mesh that operators start from do not reach the
final result. -/
theorem applyTokens_refresh (evaluation : Evaluation)
    (cache : Option Attributes) :
    (applyTokens presets tokens evaluation >>= Evaluation.refresh) =
      applyTokens presets tokens
        { mesh := { evaluation.mesh with attributes? := cache },
          diagnostics := [] } >>=
      fun result => (result.after evaluation.diagnostics).refresh := by
  have hrefresh :
      ∀ x : Except MeshError Evaluation, (x >>= Evaluation.refresh) =
        x.map Evaluation.stored >>= Evaluation.refresh := by
    intro x
    cases x <;> rfl
  let cached : Evaluation :=
    { mesh := { evaluation.mesh with attributes? := cache },
      diagnostics := evaluation.diagnostics }
  have hcached : cached = Evaluation.after evaluation.diagnostics
      { mesh := { evaluation.mesh with attributes? := cache },
        diagnostics := [] } := by
    simp [cached, Evaluation.after]
  have hstored : evaluation.stored = cached.stored := rfl
  calc
    applyTokens presets tokens evaluation >>= Evaluation.refresh
      = applyTokens presets tokens cached >>= Evaluation.refresh := by
        rw [hrefresh, ← applyTokens_stored, hstored, applyTokens_stored,
          ← hrefresh]
    _ = _ := by
        rw [hcached, applyTokens_after]
        cases applyTokens presets tokens
            { mesh := { evaluation.mesh with attributes? := cache },
              diagnostics := [] } <;>
          rfl

end Notation

/-! ## Seeds -/

theorem Seed.ofLetter?_eq_some_iff {letter : Char} {seed : Seed} :
    Seed.ofLetter? letter = some seed ↔ letter = seed.letter := by
  constructor
  · intro h
    have hletter : seed.letter = letter := by simpa using List.find?_some h
    exact hletter.symm
  · rintro rfl
    cases seed <;> decide

theorem Seed.letter_injective : Function.Injective Seed.letter := by
  intro seed other heq
  have hseed : Seed.ofLetter? seed.letter = some other :=
    Seed.ofLetter?_eq_some_iff.mpr heq
  rw [Seed.ofLetter?_eq_some_iff.mpr rfl] at hseed
  exact Option.some.inj hseed

theorem Seed.countsSides_iff {seed : Seed} :
    seed.countsSides = true ↔
      seed.readsParameter = true ∧ seed ≠ .johnson := by
  simp [countsSides]

/-- The presets let the request through, or there is a warning, and the
letter then stands for no seed or for one with too many sides. -/
theorem Notation.seedRequest_cases (presets : Presets)
    (letter? : Option Char) (n : ℕ) :
    (∃ seed : Seed, letter? = some seed.letter ∧
      (seed.readsParameter = true → seed ≠ .johnson → n ≤ presets.maxSides) ∧
      seedRequest presets letter? n = .request seed n) ∨
    (∀ seed : Seed, letter? = some seed.letter →
      seed.readsParameter = true ∧ seed ≠ .johnson ∧ presets.maxSides < n) ∧
      ∃ message, seedRequest presets letter? n =
        .unusable (.warning diagnosticSource message) := by
  cases letter? with
  | none => exact .inr ⟨nofun, _, rfl⟩
  | some letter =>
      cases hseed : Seed.ofLetter? letter with
      | none =>
          refine .inr ⟨fun seed hletter => ?_, _,
            by simp only [seedRequest, hseed]; rfl⟩
          rw [Option.some.inj hletter,
            Seed.ofLetter?_eq_some_iff.mpr rfl] at hseed
          cases hseed
      | some seed =>
          obtain rfl := Seed.ofLetter?_eq_some_iff.mp hseed
          by_cases hlimit : seed.countsSides ∧ presets.maxSides < n
          · refine .inr ⟨fun other hletter => ?_, _,
              by simp only [seedRequest, hseed, if_pos hlimit]; rfl⟩
            obtain rfl := Seed.letter_injective (Option.some.inj hletter)
            obtain ⟨hreads, hjohnson⟩ := Seed.countsSides_iff.mp hlimit.1
            exact ⟨hreads, hjohnson, hlimit.2⟩
          · refine .inl ⟨seed, rfl, fun hreads hjohnson => ?_,
              by simp only [seedRequest, hseed, if_neg hlimit]⟩
            exact Nat.le_of_not_lt fun hlt =>
              hlimit ⟨Seed.countsSides_iff.mpr ⟨hreads, hjohnson⟩, hlt⟩

/-- Why there is no usable seed for a letter and a number: no seed has the
letter, the number of sides is over the limit, or the source does not have
the seed, or not with this number. -/
inductive SeedFault (presets : Presets) (seeds : SeedSource Id)
    (letter? : Option Char) (n : ℕ) : Prop
  | unknown
      (h : ∀ seed : Seed, letter? ≠ some seed.letter)
  | overLimit {seed : Seed}
      (hletter : letter? = some seed.letter)
      (hreads : seed.readsParameter = true)
      (hjohnson : seed ≠ .johnson)
      (h : presets.maxSides < n)
  | unsupported {seed : Seed} {subject : String}
      (hletter : letter? = some seed.letter)
      (h : seeds seed n = .error (.unsupportedSeed subject))
  | refused {seed : Seed} {subject explanation : String}
      (hletter : letter? = some seed.letter)
      (h : seeds seed n = .error (.invalidParameter subject explanation))

/-- The parameter fits, and the seed cannot be used. -/
def Notation.Seedless (presets : Presets) (seeds : SeedSource Id)
    (parsed : Notation) : Prop :=
  ∃ n, parsed.parameter? = some n ∧ SeedFault presets seeds parsed.seed? n

/-! ## Texts -/

/-- What the operators of a text start from. -/
inductive Opening where
  | tooLarge
  | unusable (diagnostic : Diagnostic)
  | failed (error : MeshError)
  | seed (mesh : Mesh)

/-- The tokens do not matter for the opening. -/
def Notation.opening (presets : Presets) (seeds : SeedSource Id)
    (parsed : Notation) : Opening :=
  match parsed.parameter? with
  | none => .tooLarge
  | some parameter =>
    match seedRequest presets parsed.seed? parameter with
    | .unusable diagnostic => .unusable diagnostic
    | .request seed n =>
      match seeds seed n with
      | .ok mesh => .seed mesh
      | .error error =>
        match seedWarning? error with
        | some diagnostic => .unusable diagnostic
        | none => .failed error

theorem Notation.opening_eq_seed {presets : Presets} {seeds : SeedSource Id}
    {parsed : Notation} {parameter n : ℕ} {seed : Seed} {mesh : Mesh}
    (hparameter : parsed.parameter? = some parameter)
    (hrequest : seedRequest presets parsed.seed? parameter = .request seed n)
    (hmesh : seeds seed n = .ok mesh) :
    parsed.opening presets seeds = .seed mesh := by
  unfold opening
  simp only [hparameter, hrequest, hmesh]

theorem Notation.Seedless.exists_opening {presets : Presets}
    {seeds : SeedSource Id} {parsed : Notation}
    (h : parsed.Seedless presets seeds) :
    ∃ message, parsed.opening presets seeds =
      .unusable (.warning diagnosticSource message) := by
  obtain ⟨n, hn, hfault⟩ := h
  unfold opening
  obtain ⟨seed, hletter, hlimit, hrequest⟩ | ⟨-, message, hrequest⟩ :=
    seedRequest_cases presets parsed.seed? n
  · simp only [hn, hrequest]
    have hseed : ∀ {other : Seed}, parsed.seed? = some other.letter →
        other = seed := fun hother =>
      Seed.letter_injective (Option.some.inj (hother.symm.trans hletter))
    cases hfault with
    | unknown h => exact absurd hletter (h seed)
    | overLimit hother hreads hjohnson h =>
        obtain rfl := hseed hother
        exact absurd (hlimit hreads hjohnson) (Nat.not_le.mpr h)
    | unsupported hother h =>
        obtain rfl := hseed hother
        rw [h]
        exact ⟨_, rfl⟩
    | refused hother h =>
        obtain rfl := hseed hother
        rw [h]
        exact ⟨_, rfl⟩
  · simp only [hn, hrequest]
    exact ⟨message, rfl⟩

theorem Notation.seedless_of_opening {presets : Presets}
    {seeds : SeedSource Id} {parsed : Notation} {diagnostic : Diagnostic}
    (h : parsed.opening presets seeds = .unusable diagnostic) :
    parsed.Seedless presets seeds := by
  unfold opening at h
  cases hn : parsed.parameter? with
  | none => simp only [hn, reduceCtorEq] at h
  | some n =>
      refine ⟨n, hn, ?_⟩
      obtain ⟨seed, hletter, -, hrequest⟩ | ⟨hover, -⟩ :=
        seedRequest_cases presets parsed.seed? n
      · simp only [hn, hrequest] at h
        cases hanswer : seeds seed n with
        | ok mesh => simp only [hanswer, reduceCtorEq] at h
        | error error =>
            cases error with
            | unsupportedSeed subject => exact .unsupported hletter hanswer
            | invalidParameter subject explanation =>
                exact .refused hletter hanswer
            | _ => simp only [hanswer, seedWarning?, reduceCtorEq] at h
      · by_cases hknown : ∃ seed : Seed, parsed.seed? = some seed.letter
        · obtain ⟨seed, hletter⟩ := hknown
          obtain ⟨hreads, hjohnson, hlt⟩ := hover seed hletter
          exact .overLimit hletter hreads hjohnson hlt
        · exact .unknown (not_exists.mp hknown)

/-- The same failure; the text that it quotes is the given one. -/
def NotationError.quoting (text : String) : NotationError → NotationError
  | .parameterTooLarge _ => .parameterTooLarge text
  | .mesh error => .mesh error

theorem evaluateWith_eq (presets : Presets) (seeds : SeedSource Id)
    (text : String) :
    evaluateWith presets seeds text =
      match (Notation.decode text).opening presets seeds with
      | .tooLarge => .error (.parameterTooLarge text)
      | .unusable diagnostic =>
          (Evaluation.withoutSeed diagnostic).mapError .mesh
      | .failed error => .error (.mesh error)
      | .seed mesh =>
        (Notation.applyTokens presets (Notation.decode text).tokens
              { mesh, diagnostics := [] } >>= Evaluation.refresh).mapError
            .mesh := by
  unfold evaluateWith Notation.opening
  cases hparameter : (Notation.decode text).parameter? with
  | none =>
      simp only [hparameter]
      rfl
  | some parameter =>
      cases hrequest : Notation.seedRequest presets
        (Notation.decode text).seed? parameter with
      | unusable diagnostic =>
          simp only [hparameter, hrequest]
          rfl
      | request seed n =>
          simp only [hparameter, hrequest]
          change (Evaluation.onAnswer presets _ (seeds seed n)).mapError _ =
            _
          unfold Evaluation.onAnswer
          cases seeds seed n with
          | ok mesh => rfl
          | error error =>
              cases hwarning : Notation.seedWarning? error with
              | none => simp only [hwarning, Except.mapError]
              | some diagnostic => simp only [hwarning]

theorem Evaluation.withoutSeed_eq (diagnostic : Diagnostic) :
    ∃ result, withoutSeed diagnostic = .ok result ∧
      result.mesh.bare = Mesh.empty ∧ result.diagnostics = [diagnostic] := by
  have hempty : Mesh.empty.InRange := by decide
  exact ⟨_, refresh_of_inRange hempty, rfl, rfl⟩

namespace Notation

variable {presets : Presets} {seeds : SeedSource Id} {text : String}
  {c : Char} {rest : List Char}

theorem opening_append (before : String)
    (htext : text.toList = c :: rest)
    (hc : c.isDigit = false) :
    (decode (before ++ text)).opening presets seeds =
      (decode text).opening presets seeds := by
  rw [decode_append before htext hc]
  rfl

theorem tokens_append (before : String)
    (htext : text.toList = c :: rest)
    (hc : c.isDigit = false) :
    (decode (before ++ text)).tokens =
      tokensOf before.toList ++ (decode text).tokens := by
  rw [decode_append before htext hc]

theorem evaluateWith_append_of_unusable (before : String)
    (htext : text.toList = c :: rest)
    (hc : c.isDigit = false)
    {diagnostic : Diagnostic}
    (h : (decode text).opening presets seeds = .unusable diagnostic) :
    evaluateWith presets seeds (before ++ text) =
      evaluateWith presets seeds text := by
  rw [evaluateWith_eq, evaluateWith_eq, opening_append before htext hc, h]

theorem applyTokens_refresh_error {outer : List Token}
    {evaluation : Evaluation} {error : MeshError}
    (h : evaluation.refresh = .error error) :
    (applyTokens presets outer evaluation >>= Evaluation.refresh) =
      .error error := by
  have hrange : ¬ evaluation.mesh.InRange := by
    intro hrange
    rw [Evaluation.refresh_of_inRange hrange] at h
    cases h
  rw [Evaluation.refresh_of_not_inRange hrange] at h
  have hrun :
      applyTokens presets outer evaluation = .error .cornerOutOfRange ∨
      ∃ result, applyTokens presets outer evaluation = .ok result ∧
        ¬ result.mesh.InRange :=
    applyTokens_of_not_inRange hrange
  rcases hrun with herror | ⟨result, hresult, hout⟩
  · rw [herror, ← h]
    rfl
  · rw [hresult, ← h]
    exact Evaluation.refresh_of_not_inRange hout

theorem evaluateWith_append_of_error (before : String)
    (htext : text.toList = c :: rest)
    (hc : c.isDigit = false)
    {error : NotationError}
    (h : evaluateWith presets seeds text = .error error) :
    evaluateWith presets seeds (before ++ text) =
      .error (error.quoting (before ++ text)) := by
  rw [evaluateWith_eq] at h ⊢
  rw [opening_append before htext hc, tokens_append before htext hc]
  cases hopening : (decode text).opening presets seeds with
  | tooLarge =>
      simp only [hopening] at h
      cases h
      rfl
  | unusable diagnostic =>
      obtain ⟨result, hresult, -⟩ := Evaluation.withoutSeed_eq diagnostic
      simp [hopening, hresult, Except.mapError] at h
  | failed failure =>
      simp only [hopening] at h
      cases h
      rfl
  | seed mesh =>
      simp only [hopening] at h
      simp only [applyTokens_append]
      cases hinner : applyTokens presets (decode text).tokens
        { mesh, diagnostics := [] } with
      | error failure =>
          rw [hinner] at h
          cases h
          rfl
      | ok inner =>
          rw [hinner] at h
          change inner.refresh.mapError _ = _ at h
          change (applyTokens presets _ inner >>=
            Evaluation.refresh).mapError _ = _
          cases hrefresh : inner.refresh with
          | error failure =>
              rw [hrefresh] at h
              rw [applyTokens_refresh_error hrefresh]
              cases h
              rfl
          | ok result =>
              rw [hrefresh] at h
              cases h

theorem exists_opening_eq_seed {evaluation : Evaluation}
    (hseed : ¬ (decode text).Seedless presets seeds)
    (h : evaluateWith presets seeds text = .ok evaluation) :
    ∃ mesh, (decode text).opening presets seeds = .seed mesh := by
  rw [evaluateWith_eq] at h
  cases hopening : (decode text).opening presets seeds with
  | unusable diagnostic => exact absurd (seedless_of_opening hopening) hseed
  | seed mesh => exact ⟨mesh, rfl⟩
  | tooLarge | failed error =>
      rw [hopening] at h
      cases h

theorem evaluateWith_append_of_ok (before : String)
    (htext : text.toList = c :: rest)
    (hc : c.isDigit = false)
    {mesh : Mesh} {evaluation : Evaluation}
    (hseed : (decode text).opening presets seeds = .seed mesh)
    (h : evaluateWith presets seeds text = .ok evaluation)
    (cache : Option Attributes) :
    evaluateWith presets seeds (before ++ text) =
      (applyTokens presets (tokensOf before.toList)
        { mesh := { evaluation.mesh with attributes? := cache },
          diagnostics := [] } >>=
        fun result => (result.after evaluation.diagnostics).refresh).mapError
        .mesh := by
  rw [evaluateWith_eq] at h ⊢
  rw [opening_append before htext hc, tokens_append before htext hc]
  simp only [hseed] at h ⊢
  obtain ⟨inner, hinner, hrefresh⟩ :=
    Except.bind_eq_ok_iff.mp (Except.mapError_eq_ok_iff.mp h)
  obtain rfl := Evaluation.eq_of_refresh hrefresh
  rw [applyTokens_append, hinner]
  exact congrArg _ (applyTokens_refresh inner cache)

/-- The meaning of a text that does not start with a digit does not depend on
what is written before it.  The tokens in front act on its evaluation one
after another from the last to the first, where the attributes of the mesh
may be any, and the attributes are computed anew at the end.  Without a
usable seed the result is the empty mesh with one warning, also behind other
tokens, and a failure stays. -/
theorem evaluateWith_append (presets : Presets) (seeds : SeedSource Id)
    (before text : String) (c : Char) (rest : List Char)
    (htext : text.toList = c :: rest)
    (hc : c.isDigit = false) :
    ((decode (before ++ text)).seed? = (decode text).seed? ∧
      (decode (before ++ text)).parameter? = (decode text).parameter? ∧
      (decode (before ++ text)).tokens =
        tokensOf before.toList ++ (decode text).tokens) ∧
    ((decode text).Seedless presets seeds →
      evaluateWith presets seeds (before ++ text) =
        evaluateWith presets seeds text ∧
      ∃ result warning, evaluateWith presets seeds text = .ok result ∧
        result.mesh.bare = Mesh.empty ∧ result.diagnostics = [warning] ∧
        warning.severity = .warning) ∧
    (∀ error, evaluateWith presets seeds text = .error error →
      evaluateWith presets seeds (before ++ text) =
        .error (error.quoting (before ++ text))) ∧
    (∀ evaluation cache, ¬ (decode text).Seedless presets seeds →
      evaluateWith presets seeds text = .ok evaluation →
      evaluateWith presets seeds (before ++ text) =
        ((tokensOf before.toList).foldrM (applyToken presets)
          { mesh := { evaluation.mesh with attributes? := cache }
            diagnostics := [] } >>= fun result =>
              (result.after evaluation.diagnostics).refresh).mapError
                .mesh) ∧
    (tokensOf [] = [] ∧ ∀ code rest, tokensOf (code :: rest) =
      ⟨code, argumentOf? (rest.takeWhile Char.isDigit)⟩ ::
        tokensOf (rest.dropWhile Char.isDigit)) ∧
    (∀ token current,
      Acts presets token current (applyToken presets token current)) ∧
    ∀ evaluation : Evaluation,
      (evaluation.mesh.InRange → evaluation.refresh = .ok
        { evaluation with
          mesh := { evaluation.mesh with
            attributes? := some evaluation.mesh.attributes } }) ∧
      (¬ evaluation.mesh.InRange →
        evaluation.refresh = .error .cornerOutOfRange) := by
  refine ⟨?_, ?_, ?_, ?_, ⟨rfl, tokensOf_cons⟩,
    fun token current => acts_applyToken, fun evaluation =>
      ⟨Evaluation.refresh_of_inRange, Evaluation.refresh_of_not_inRange⟩⟩
  · rw [decode_append before htext hc]
    exact ⟨rfl, rfl, rfl⟩
  · intro h
    obtain ⟨message, hopening⟩ := h.exists_opening
    refine ⟨evaluateWith_append_of_unusable before htext hc hopening, ?_⟩
    obtain ⟨result, hresult, hempty, hwarning⟩ :=
      Evaluation.withoutSeed_eq (.warning diagnosticSource message)
    refine ⟨result, _, ?_, hempty, hwarning, rfl⟩
    rw [evaluateWith_eq, hopening]
    simp only [hresult]
    rfl
  · intro error h
    exact evaluateWith_append_of_error before htext hc h
  · intro evaluation cache hseed h
    obtain ⟨mesh, hopening⟩ := exists_opening_eq_seed hseed h
    exact evaluateWith_append_of_ok before htext hc hopening h cache

/-- A dual in front of a tetrahedron, of an unknown seed and of a parameter
that is too large, and a code without a meaning. -/
theorem evaluateWith_append_dual :
    (∃ evaluation,
      evaluateWith (m := Id) {}
        (fun _ _ => .ok (Platonic.tetrahedron.named "T")) "T" =
          .ok evaluation ∧
      ∀ cache,
        evaluateWith (m := Id) {}
          (fun _ _ => .ok (Platonic.tetrahedron.named "T")) ("d" ++ "T") =
            ([⟨'d', none⟩].foldrM (applyToken {})
              { mesh := { evaluation.mesh with attributes? := cache }
                diagnostics := [] } >>= fun result =>
                  (result.after evaluation.diagnostics).refresh).mapError
                    .mesh) ∧
    evaluateWith (m := Id) {} standardSeed ("d" ++ "Z") =
      evaluateWith (m := Id) {} standardSeed "Z" ∧
    evaluateWith (m := Id) {} standardSeed ("d" ++ "P4294967296") =
      .error (.parameterTooLarge "dP4294967296") ∧
    ∃ warning : Diagnostic, warning.severity = .warning ∧
      applyToken {} ⟨'z', none⟩ { mesh := .empty, diagnostics := [] } =
        .ok { mesh := .empty, diagnostics := [warning] } := by
  have happend (seeds : SeedSource Id) (text : String) (c : Char)
      (rest : List Char) (htext : text.toList = c :: rest)
      (hc : c.isDigit = false) :=
    evaluateWith_append {} seeds "d" text c rest htext hc
  refine ⟨?_, ?_, ?_, ?_⟩
  · let seeds : SeedSource Id :=
      fun _ _ => .ok (Platonic.tetrahedron.named "T")
    have hdecode : decode "T" =
        { tokens := [], seed? := some 'T', parameter? := some 0 } := by
      decide
    have hopening : (decode "T").opening {} seeds =
        .seed (Platonic.tetrahedron.named "T") :=
      opening_eq_seed (by rw [hdecode]) (by rw [hdecode]; rfl) rfl
    have hrange : (Platonic.tetrahedron.named "T").InRange := by decide
    have hevaluation : evaluateWith {} seeds "T" = .ok
        { mesh := { Platonic.tetrahedron.named "T" with
            attributes? := some (Platonic.tetrahedron.named "T").attributes }
          diagnostics := [] } := by
      rw [evaluateWith_eq, hopening, hdecode]
      change (Evaluation.refresh
        ⟨Platonic.tetrahedron.named "T", []⟩).mapError .mesh = _
      rw [Evaluation.refresh_of_inRange hrange]
      rfl
    have hseed : ¬ (decode "T").Seedless {} seeds := by
      intro h
      obtain ⟨message, hunusable⟩ := h.exists_opening
      rw [hopening] at hunusable
      cases hunusable
    refine ⟨_, hevaluation, fun cache => ?_⟩
    exact (happend seeds "T" 'T' [] rfl rfl).2.2.2.1
      _ cache hseed hevaluation
  · have hdecode : decode "Z" =
        { tokens := [], seed? := some 'Z', parameter? := some 0 } := by
      decide
    have hseedless : (decode "Z").Seedless {} standardSeed := by
      rw [hdecode]
      refine ⟨0, rfl, .unknown fun seed => ?_⟩
      cases seed <;> decide
    exact ((happend standardSeed "Z" 'Z' [] rfl rfl).2.1 hseedless).1
  · have hdecode : (decode "P4294967296").parameter? = none := by
      decide
    have herror : evaluateWith (m := Id) {} standardSeed "P4294967296" =
        .error (.parameterTooLarge "P4294967296") := by
      rw [evaluateWith_eq, opening, hdecode]
    exact (happend standardSeed "P4294967296" 'P' _ rfl rfl).2.2.1 _ herror
  · have hacts := (happend standardSeed "Z" 'Z' [] rfl rfl).2.2.2.2.2.1
      ⟨'z', none⟩ { mesh := .empty, diagnostics := [] }
    have hnone : Operator.ofCode? 'z' none {} = none := rfl
    generalize applyToken {} ⟨'z', none⟩
      { mesh := .empty, diagnostics := [] } = outcome at hacts
    cases hacts with
    | unknown hop hwarning => exact ⟨_, hwarning, rfl⟩
    | refused hop | applied hop | failed hop => cases hnone.symm.trans hop

end Notation
end Polyhedra
