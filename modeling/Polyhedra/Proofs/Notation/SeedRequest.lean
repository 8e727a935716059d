import Mathlib
import Polyhedra.Notation.Evaluation
import Polyhedra.Proofs.Notation.Composition

/-!
# Requests for seeds

A text asks for at most one seed, and the request is passed on only behind
the limits of the notation and of the presets.  Without a usable seed the
operators do not matter.  The standard seeds have limits of their own, so
that a builder gets a number of sides between three and 1024 under all
presets.

Requests are seen in a source that keeps a record of them, and the numbers of
sides in a copy of the standard seeds whose builders do.
-/

namespace Polyhedra

/-- The result without a seed: the empty mesh, with its attributes, and one
warning. -/
def Evaluation.seedless (message : String) : Evaluation where
  mesh := { Mesh.empty with attributes? := some Mesh.empty.attributes }
  diagnostics := [.warning Notation.diagnosticSource message]

theorem Evaluation.withoutSeed_warning (message : String) :
    withoutSeed (.warning Notation.diagnosticSource message) =
      .ok (seedless message) := by
  have hempty : Mesh.empty.InRange := by decide
  exact refresh_of_inRange hempty

namespace Notation

/-! ## What a text asks for -/

/-- The number at the end of a text, zero if there is none. -/
def trailingValue (text : String) : ℕ :=
  value (text.toList.rtakeWhile Char.isDigit)

/-- The last character of a text that is no digit. -/
def lastLetter? (text : String) : Option Char :=
  (text.toList.filter fun c => !c.isDigit).getLast?

theorem seed?_decode (text : String) :
    (decode text).seed? = lastLetter? text := by
  change (text.toList.reverse.dropWhile Char.isDigit).reverse.getLast? = _
  rw [lastLetter?, List.getLast?_reverse, List.getLast?_eq_head?_reverse,
    ← List.filter_reverse, List.head?_filter]
  simpa using
    (List.find?_not_eq_head?_dropWhile Char.isDigit text.toList.reverse).symm

theorem parameter?_decode (text : String) :
    (decode text).parameter? = if trailingValue text ≤ maxNumber
      then some (trailingValue text) else none :=
  parameterOf?_eq _

/-- Under the presets the text asks for a seed with the parameter `n`. -/
structure Asks (presets : Presets) (text : String) (seed : Seed) (n : ℕ) :
    Prop where
  value_eq : trailingValue text = n
  fits : n ≤ maxNumber
  letter_eq : lastLetter? text = some seed.letter
  sides_le :
    seed.readsParameter = true → seed ≠ .johnson → n ≤ presets.maxSides

variable {presets : Presets} {text : String} {seed : Seed} {n : ℕ}

theorem Asks.eq {other : Seed} {k : ℕ}
    (h : Asks presets text seed n)
    (hother : Asks presets text other k) : seed = other ∧ n = k :=
  ⟨Seed.letter_injective
      (Option.some.inj (h.letter_eq.symm.trans hother.letter_eq)),
    h.value_eq.symm.trans hother.value_eq⟩

/-! ## One evaluation -/

section Evaluation

variable {m : Type → Type} [Monad m]

theorem evaluateWith_of_asks
    (h : Asks presets text seed n)
    (seeds : SeedSource m) :
    evaluateWith presets seeds text = seeds seed n >>= fun answer =>
      pure ((Evaluation.onAnswer presets (decode text).tokens
          answer).mapError .mesh) := by
  have hparameter : (decode text).parameter? = some n := by
    rw [parameter?_decode, h.value_eq, if_pos h.fits]
  have hrequest :
      seedRequest presets (decode text).seed? n = .request seed n := by
    have hlimit : ¬ (seed.countsSides ∧ presets.maxSides < n) := by
      rintro ⟨hcounts, hlt⟩
      obtain ⟨hreads, hjohnson⟩ := Seed.countsSides_iff.mp hcounts
      exact Nat.not_lt.mpr (h.sides_le hreads hjohnson) hlt
    rw [seed?_decode, h.letter_eq]
    simp only [seedRequest, Seed.ofLetter?_eq_some_iff.mpr rfl,
      if_neg hlimit]
  unfold evaluateWith
  simp only [hparameter, hrequest]

theorem evaluateWith_of_tooLarge
    (h : maxNumber < trailingValue text)
    (seeds : SeedSource m) :
    evaluateWith presets seeds text =
      pure (.error (.parameterTooLarge text)) := by
  have hparameter : (decode text).parameter? = none := by
    rw [parameter?_decode, if_neg (Nat.not_le.mpr h)]
  unfold evaluateWith
  simp only [hparameter]

/-- Without a seed to ask for the result depends on the last letter and the
number only. -/
theorem exists_message_of_not_asks
    (hfits : trailingValue text ≤ maxNumber)
    (h : ∀ seed n, ¬ Asks presets text seed n) :
    ∃ message, ∀ (m : Type → Type) [Monad m] (seeds : SeedSource m)
        (other : String), lastLetter? other = lastLetter? text →
      trailingValue other = trailingValue text →
      evaluateWith presets seeds other = pure (.ok (.seedless message)) := by
  obtain ⟨seed, hletter, hsides, -⟩ | ⟨-, message, hrequest⟩ :=
    seedRequest_cases presets (lastLetter? text) (trailingValue text)
  · exact absurd ⟨rfl, hfits, hletter, hsides⟩ (h seed (trailingValue text))
  · refine ⟨message, fun m _ seeds other hletter hvalue => ?_⟩
    have hparameter :
        (decode other).parameter? = some (trailingValue text) := by
      rw [parameter?_decode, hvalue, if_pos hfits]
    have hunusable :
        seedRequest presets (decode other).seed? (trailingValue text) =
          .unusable (.warning diagnosticSource message) := by
      rw [seed?_decode, hletter, hrequest]
    unfold evaluateWith
    simp only [hparameter, hunusable, Evaluation.withoutSeed_warning]
    rfl

end Evaluation

end Notation

/-! ## A record of the requests -/

/-- The same source, which appends every request to a record before it
answers. -/
def SeedSource.recorded {m : Type → Type} [Monad m] (seeds : SeedSource m) :
    SeedSource (StateT (List (Seed × ℕ)) m) := fun seed n => do
  modify (· ++ [(seed, n)])
  seeds seed n

section Record

variable {m : Type → Type} [Monad m] [LawfulMonad m]

theorem SeedSource.run_recorded (seeds : SeedSource m) (seed : Seed) (n : ℕ)
    (record : List (Seed × ℕ)) :
    (seeds.recorded seed n).run record =
      (fun answer => (answer, record ++ [(seed, n)])) <$> seeds seed n := by
  simp [recorded]

/-- How an evaluation uses the source of seeds: at most one request, and
which results there are without one or with a refusal. -/
structure RequestsSeed (presets : Presets) (seeds : SeedSource m)
    (text : String) : Prop where
  /-- The record has no influence on the evaluation. -/
  erase (record : List (Seed × ℕ)) :
    Prod.fst <$> (evaluateWith presets seeds.recorded text).run record =
      evaluateWith presets seeds text
  /-- The text asks for one seed with one parameter. -/
  unique {seed other : Seed} {n k : ℕ} : Notation.Asks presets text seed n →
    Notation.Asks presets text other k → seed = other ∧ n = k
  /-- What the text asks for is requested once, and a refusal gives the
  result without a seed. -/
  asks {seed : Seed} {n : ℕ} : Notation.Asks presets text seed n →
    ∃ outcome : Except MeshError Mesh → Except NotationError Evaluation,
      (∀ record, (evaluateWith presets seeds.recorded text).run record =
        (fun answer => (outcome answer, record ++ [(seed, n)])) <$> seeds
          seed n) ∧
      (∀ subject, outcome (.error (.unsupportedSeed subject)) =
        .ok (.seedless ("unsupported seed '" ++ subject ++ "'"))) ∧
      ∀ subject explanation,
        outcome (.error (.invalidParameter subject explanation)) =
          .ok (.seedless ("seed '" ++ subject ++ "' " ++ explanation))
  /-- Nothing is requested when the number at the end is too large. -/
  tooLarge : Notation.maxNumber < Notation.trailingValue text →
    ∀ record, (evaluateWith presets seeds.recorded text).run record =
      pure (.error (.parameterTooLarge text), record)
  /-- Nothing is requested when the text asks for nothing, and the operators
  do not matter. -/
  unusable : Notation.trailingValue text ≤ Notation.maxNumber →
    (∀ seed n, ¬ Notation.Asks presets text seed n) →
    ∃ message,
      ∀ other, Notation.lastLetter? other = Notation.lastLetter? text →
        Notation.trailingValue other = Notation.trailingValue text →
        ∀ record, (evaluateWith presets seeds.recorded other).run record =
          pure (.ok (.seedless message), record)

theorem erase_recorded (presets : Presets) (seeds : SeedSource m)
    (text : String) (record : List (Seed × ℕ)) :
    Prod.fst <$> (evaluateWith presets seeds.recorded text).run record =
      evaluateWith presets seeds text := by
  rcases Nat.lt_or_ge Notation.maxNumber (Notation.trailingValue text) with
    hlarge | hfits
  · rw [Notation.evaluateWith_of_tooLarge hlarge,
      Notation.evaluateWith_of_tooLarge hlarge]
    simp
  by_cases hasks : ∃ seed n, Notation.Asks presets text seed n
  · obtain ⟨seed, n, h⟩ := hasks
    rw [Notation.evaluateWith_of_asks h, Notation.evaluateWith_of_asks h]
    simp [SeedSource.run_recorded]
  · obtain ⟨message, hmessage⟩ := Notation.exists_message_of_not_asks hfits
      fun seed n h => hasks ⟨seed, n, h⟩
    rw [hmessage _ _ text rfl rfl, hmessage _ _ text rfl rfl]
    simp

theorem requestsSeed (presets : Presets) (seeds : SeedSource m)
    (text : String) :
    RequestsSeed presets seeds text where
  erase := erase_recorded presets seeds text
  unique := Notation.Asks.eq
  asks {seed n} h := by
    refine ⟨fun answer =>
      (Evaluation.onAnswer presets (Notation.decode text).tokens
        answer).mapError .mesh, ?_, ?_, ?_⟩
    · intro record
      rw [Notation.evaluateWith_of_asks h]
      simp [SeedSource.run_recorded]
    · intro subject
      exact congrArg (Except.mapError _) (Evaluation.withoutSeed_warning _)
    · intro subject explanation
      exact congrArg (Except.mapError _) (Evaluation.withoutSeed_warning _)
  tooLarge h record := by
    rw [Notation.evaluateWith_of_tooLarge h]
    rfl
  unusable hfits h := by
    obtain ⟨message, hmessage⟩ := Notation.exists_message_of_not_asks hfits h
    refine ⟨message, fun other hletter hvalue record => ?_⟩
    rw [hmessage _ _ other hletter hvalue]
    rfl

end Record

/-! ## A record of what the builders are given -/

namespace StandardSeed

/-- The builders that are given a number of sides. -/
inductive Builder where
  | prism
  | antiprism
  | pyramid
  | cupola
  | anticupola

def Builder.solid : Builder → ℕ → Solid
  | prism => Ring.prism
  | antiprism => Ring.antiprism
  | pyramid => Ring.pyramid
  | cupola => Ring.cupola
  | anticupola => Ring.anticupola

section Builders

variable {m : Type → Type} [Monad m] (build : Builder → ℕ → m Solid)

def sidedM (builder : Builder) (seed : Seed) (n : ℕ) :
    m (Except MeshError Solid) :=
  match sides seed n with
  | .ok count => .ok <$> build builder count
  | .error error => pure (.error error)

def johnsonM (n : ℕ) : m (Except MeshError Solid) :=
  match n with
  | 1 => .ok <$> build .pyramid 4
  | 2 => .ok <$> build .pyramid 5
  | 3 => .ok <$> build .cupola 3
  | 4 => .ok <$> build .cupola 4
  | 5 => .ok <$> build .cupola 5
  | _ => pure (.error (.unsupportedSeed s!"J{n}"))

/-- The solid of a seed, with builders in a monad. -/
def solidM (seed : Seed) (n : ℕ) : m (Except MeshError Solid) :=
  match seed with
  | .tetrahedron => pure (.ok Platonic.tetrahedron)
  | .cube => pure (.ok Platonic.cube)
  | .octahedron => pure (.ok Platonic.octahedron)
  | .icosahedron => pure (.ok Platonic.icosahedron)
  | .dodecahedron => pure Platonic.dodecahedron
  | .prism => sidedM build .prism seed n
  | .antiprism => sidedM build .antiprism seed n
  | .pyramid => sidedM build .pyramid seed n
  | .cupola => sidedM build .cupola seed n
  | .anticupola => sidedM build .anticupola seed n
  | .johnson => johnsonM build n

/-- The standard seeds, with builders in a monad. -/
def sourceM : SeedSource m := fun seed n => do
  let solid ← solidM build seed n
  pure (solid.map fun solid =>
    turnedOutward ((centered solid).named (seed.word n)))

end Builders

/-- With the builders themselves these are the standard seeds. -/
theorem sourceM_solid : sourceM (m := Id) Builder.solid = standardSeed := by
  have hsided (builder : Builder) (seed : Seed) (n : ℕ) :
      sidedM (m := Id) Builder.solid builder seed n =
        builder.solid <$> sides seed n := by
    unfold sidedM
    cases sides seed n <;> rfl
  have hjohnson (n : ℕ) :
      johnsonM (m := Id) Builder.solid n = johnson n := by
    match n with
    | 0 | 1 | 2 | 3 | 4 | 5 => rfl
    | _ + 6 => rfl
  have hsolid (seed : Seed) (n : ℕ) :
      solidM (m := Id) Builder.solid seed n = solid seed n := by
    cases seed with
    | tetrahedron | cube | octahedron | icosahedron | dodecahedron => rfl
    | prism | antiprism | pyramid | cupola | anticupola => exact hsided _ _ n
    | johnson => exact hjohnson n
  funext seed n
  change (solidM (m := Id) Builder.solid seed n).map _ = standardSeed seed n
  rw [hsolid, standardSeed]
  cases solid seed n <;> rfl

/-- Builds the solid, and appends the builder with the number of sides to a
record. -/
def Builder.record (builder : Builder) (count : ℕ) :
    StateM (List (Builder × ℕ)) Solid := do
  modify (· ++ [(builder, count)])
  pure (builder.solid count)

/-- What a builder may be given for a seed and its parameter. -/
structure Sound (seed : Seed) (n : ℕ) (call : Builder × ℕ) : Prop where
  three_le : 3 ≤ call.2
  le_limit : call.2 ≤ 1024
  eq_parameter : seed ≠ .johnson → call.2 = if n = 0 then 3 else n

/-- A run that gives the result and makes at most one call of a builder,
which is sound. -/
def Records {α : Type} (run : StateM (List (Builder × ℕ)) α) (seed : Seed)
    (n : ℕ) (result : α) : Prop :=
  ∃ calls : List (Builder × ℕ), calls.length ≤ 1 ∧
    (∀ call ∈ calls, Sound seed n call) ∧
    ∀ record, run.run record = (result, record ++ calls)

variable {seed : Seed} {n : ℕ}

theorem records_pure {α : Type} (result : α) :
    Records (pure result) seed n result :=
  ⟨[], by simp, by simp, fun record => by rw [List.append_nil]; rfl⟩

theorem records_build {builder : Builder} {count : ℕ}
    (h : Sound seed n (builder, count)) :
    Records (.ok <$> builder.record count) seed n
      (.ok (builder.solid count) : Except MeshError Solid) :=
  ⟨[(builder, count)], by simp, by simpa using h, fun _ => rfl⟩

theorem Records.map {α β : Type} {run : StateM (List (Builder × ℕ)) α}
    {result : α} (h : Records run seed n result)
    (f : α → β) :
    Records (run >>= fun a => pure (f a)) seed n (f result) := by
  obtain ⟨calls, hlength, hsound, hrun⟩ := h
  refine ⟨calls, hlength, hsound, fun record => ?_⟩
  rw [StateT.run_bind, hrun]
  rfl

theorem sides_eq_ok {count : ℕ} (h : sides seed n = .ok count) :
    3 ≤ count ∧ count ≤ 1024 ∧ count = if n = 0 then 3 else n := by
  unfold sides at h
  split_ifs at h with hzero hfew hmany
  · obtain rfl := Except.ok.inj h
    simp [defaultSides, hzero]
  · obtain rfl := Except.ok.inj h
    rw [minSides] at hfew
    rw [maxSupportedSides] at hmany
    rw [if_neg hzero]
    omega

theorem records_sided (builder : Builder) (seed : Seed) (n : ℕ) :
    Records (sidedM Builder.record builder seed n) seed n
      (builder.solid <$> sides seed n) := by
  unfold sidedM
  cases hsides : sides seed n with
  | error error => exact records_pure _
  | ok count =>
      obtain ⟨hlow, hhigh, hcount⟩ := sides_eq_ok hsides
      exact records_build ⟨hlow, hhigh, fun _ => hcount⟩

theorem records_johnson (n : ℕ) :
    Records (johnsonM Builder.record n) .johnson n (johnson n) := by
  have hbuild {k : ℕ} (builder : Builder) (count : ℕ) (hlow : 3 ≤ count)
      (hhigh : count ≤ 5) : Records (.ok <$> builder.record count) .johnson k
      (.ok (builder.solid count) : Except MeshError Solid) :=
    records_build ⟨hlow, by omega, fun h => absurd rfl h⟩
  match n with
  | 0 => exact records_pure _
  | 1 => exact hbuild .pyramid 4 (by omega) (by omega)
  | 2 => exact hbuild .pyramid 5 (by omega) (by omega)
  | 3 => exact hbuild .cupola 3 (by omega) (by omega)
  | 4 => exact hbuild .cupola 4 (by omega) (by omega)
  | 5 => exact hbuild .cupola 5 (by omega) (by omega)
  | _ + 6 => exact records_pure _

theorem records_solid (seed : Seed) (n : ℕ) :
    Records (solidM Builder.record seed n) seed n (solid seed n) := by
  cases seed with
  | tetrahedron | cube | octahedron | icosahedron | dodecahedron =>
      exact records_pure _
  | prism | antiprism | pyramid | cupola | anticupola =>
      exact records_sided _ _ n
  | johnson => exact records_johnson n

theorem records_source (seed : Seed) (n : ℕ) :
    Records (sourceM Builder.record seed n) seed n
      (standardSeed seed n) := by
  have hmap := (records_solid seed n).map fun solid =>
    solid.map fun solid =>
      turnedOutward ((centered solid).named (seed.word n))
  have hsource : standardSeed seed n = (solid seed n).map fun solid =>
      turnedOutward ((centered solid).named (seed.word n)) := by
    unfold standardSeed
    cases solid seed n <;> rfl
  rw [hsource]
  exact hmap

/-- Under all presets an evaluation with the standard seeds calls at most one
builder. -/
theorem records_evaluate {presets : Presets} {text : String}
    (h : Notation.Asks presets text seed n) :
    Records (evaluateWith presets (sourceM Builder.record) text) seed n
      (evaluate presets text) := by
  have hplain : evaluate presets text =
      (Evaluation.onAnswer presets (Notation.decode text).tokens
        (standardSeed seed n)).mapError .mesh := by
    rw [evaluate, Notation.evaluateWith_of_asks h]
    rfl
  rw [Notation.evaluateWith_of_asks h, hplain]
  exact (records_source seed n).map _

/-- Where nothing is requested the evaluation is the same from every
source. -/
theorem run_evaluateWith_of_not_asks {presets : Presets} {text : String}
    (h : ∀ seed n, ¬ Notation.Asks presets text seed n)
    (record : List (Builder × ℕ)) :
    (evaluateWith presets (sourceM Builder.record) text).run record =
      (evaluate presets text, record) := by
  rw [evaluate]
  rcases Nat.lt_or_ge Notation.maxNumber (Notation.trailingValue text) with
    hlarge | hfits
  · rw [Notation.evaluateWith_of_tooLarge hlarge,
      Notation.evaluateWith_of_tooLarge hlarge]
    rfl
  · obtain ⟨message, hmessage⟩ := Notation.exists_message_of_not_asks hfits h
    rw [hmessage _ _ text rfl rfl, hmessage _ _ text rfl rfl]
    rfl

end StandardSeed

/-- An evaluation requests at most the seed that its text asks for, from any
source.  Without an answer that is a mesh the operators do not matter, and
from the standard seeds no builder is given a number of sides outside its
range. -/
theorem evaluateWith_requestsSeed :
    (∀ (m : Type → Type) [Monad m] [LawfulMonad m] (presets : Presets)
          (seeds : SeedSource m) (text : String),
        RequestsSeed presets seeds text) ∧
      StandardSeed.sourceM (m := Id) StandardSeed.Builder.solid =
        standardSeed ∧
      (∀ seed n, StandardSeed.Records (StandardSeed.sourceM
        StandardSeed.Builder.record seed n) seed n (standardSeed seed n)) ∧
      ∀ presets text, (∀ seed n, Notation.Asks presets text seed n →
        StandardSeed.Records (evaluateWith presets
            (StandardSeed.sourceM StandardSeed.Builder.record) text) seed n
          (evaluate presets text)) ∧
        ((∀ seed n, ¬ Notation.Asks presets text seed n) →
          ∀ record, (evaluateWith presets
              (StandardSeed.sourceM StandardSeed.Builder.record) text).run
            record = (evaluate presets text, record)) :=
  ⟨fun _ _ _ => requestsSeed, StandardSeed.sourceM_solid,
    StandardSeed.records_source,
    fun _ _ => ⟨fun _ _ => StandardSeed.records_evaluate,
      StandardSeed.run_evaluateWith_of_not_asks⟩⟩

/-- A source without prisms, a number that is too large, a letter without a
seed behind other operators, and the prism that stands for three sides. -/
theorem evaluateWith_requestsSeed_prism :
    (∃ outcome, (evaluateWith {} (SeedSource.recorded (m := Id) fun _ _ =>
            .error (.unsupportedSeed "P")) "dP12").run [] =
          (outcome, [(.prism, 12)]) ∧
        outcome = .ok (.seedless "unsupported seed 'P'")) ∧
      (evaluateWith {} (SeedSource.recorded (m := Id) standardSeed)
        "dP4294967296").run [] =
      (.error (.parameterTooLarge "dP4294967296"), []) ∧
      (∃ message,
        (evaluateWith {} (SeedSource.recorded (m := Id) standardSeed)
          "kZ").run [] = (.ok (.seedless message), []) ∧
        (evaluateWith {} (SeedSource.recorded (m := Id) standardSeed)
          "ddZ").run [] = (.ok (.seedless message), [])) ∧
      StandardSeed.Records (evaluateWith {}
          (StandardSeed.sourceM StandardSeed.Builder.record) "P") .prism 0
        (evaluate {} "P") := by
  obtain ⟨hsource, -, -, hstandard⟩ := evaluateWith_requestsSeed
  refine ⟨?_, ?_, ?_, ?_⟩
  · have hasks : Notation.Asks {} "dP12" .prism 12 :=
      ⟨by decide, by decide, by decide, by decide⟩
    obtain ⟨outcome, hrun, hrefused, -⟩ :=
      (hsource Id {} _ "dP12").asks hasks
    exact ⟨_, hrun [], hrefused "P"⟩
  · exact (hsource Id {} _ _).tooLarge (by decide) []
  · have hunusable : ∀ seed n, ¬ Notation.Asks {} "kZ" seed n := by
      intro seed n h
      have hletter := h.letter_eq
      revert hletter
      cases seed <;> decide
    obtain ⟨message, hrun⟩ :=
      (hsource Id {} standardSeed "kZ").unusable (by decide) hunusable
    exact ⟨message, hrun "kZ" rfl rfl [],
      hrun "ddZ" (by decide) (by decide) []⟩
  · exact (hstandard {} "P").1 .prism 0
      ⟨by decide, by decide, by decide, by decide⟩

end Polyhedra
