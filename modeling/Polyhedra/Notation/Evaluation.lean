import Polyhedra.Notation.Basic
import Polyhedra.Operator.Basic
import Polyhedra.Seed.Standard

/-!
# Evaluation of a text

The seed is requested first; a text that names no usable seed evaluates to
the empty mesh with a warning.  The operators are then applied from the last
one written to the first.  A code without a meaning, or an operator whose
argument is outside its range, is skipped with a warning.  Attributes are
computed once, at the end.

The source of seeds may have effects of its own, such as keeping a record of
the requests.
-/

namespace Polyhedra

inductive NotationError where
  /-- The number at the end of the text does not fit 32 bits. -/
  | parameterTooLarge (text : String)
  | mesh (error : MeshError)
deriving DecidableEq

def NotationError.message : NotationError → String
  | parameterTooLarge text =>
    "Invalid seed parameter in '" ++ text ++
      "': seed parameter does not fit a 32-bit count"
  | mesh error => error.message

/-- A mesh with what was said on the way to it. -/
structure Evaluation where
  mesh : Mesh
  diagnostics : Diagnostics
deriving BEq

/-- A source of seeds: for a seed and a parameter a mesh or the reason why
there is none. -/
abbrev SeedSource (m : Type → Type) := Seed → Nat → m (Except MeshError Mesh)

/-- What a text asks the source of seeds for. -/
inductive SeedRequest where
  | unusable (diagnostic : Diagnostic)
  | request (seed : Seed) (parameter : Nat)

namespace Notation

/-- The source of diagnostics about the text itself. -/
def diagnosticSource : String := "notation"

/-- The request for a seed, if its letter is known and its parameter within
the presets. -/
def seedRequest (presets : Presets) (seed? : Option Char) (parameter : Nat) :
    SeedRequest :=
  match seed? with
  | none => .unusable (.warning diagnosticSource "no seed given")
  | some letter =>
    match Seed.ofLetter? letter with
    | none =>
        .unusable (.warning diagnosticSource
          ("unknown seed '" ++ letter.toString ++ "'"))
    | some seed =>
      if seed.countsSides ∧ presets.maxSides < parameter then
        .unusable (.warning diagnosticSource ("seed '" ++ letter.toString ++
          s!"{parameter}' exceeds {presets.maxSides} sides"))
      else .request seed parameter

/-- What a failure of the source of seeds means: a seed that it does not
have, or not with this parameter, is unusable, and any other failure ends the
evaluation. -/
def seedWarning? : MeshError → Option Diagnostic
  | .unsupportedSeed seed =>
      some (.warning diagnosticSource ("unsupported seed '" ++ seed ++ "'"))
  | .invalidParameter subject explanation =>
    some (.warning diagnosticSource
      ("seed '" ++ subject ++ "' " ++ explanation))
  | _ => none

/-- The remark on an argument that the operator does not take. -/
def argumentRemark (token : Token) (op : Operator) : Diagnostics :=
  match token.argument? with
  | some argument =>
    if op.readsNumber then []
    else
      [ .info diagnosticSource ("operator '" ++ token.code.toString ++
        s!"' takes no argument, ignoring {argument}") ]
  | none => []

/-- One operator applied to what has been evaluated so far. -/
def applyToken (presets : Presets) (token : Token) (current : Evaluation) :
    Except MeshError Evaluation :=
  match Operator.ofCode? token.code token.argument? presets with
  | none =>
    let message := "unknown operator '" ++ token.code.toString ++ "' skipped"
    .ok { current with
      diagnostics :=
        current.diagnostics ++ [.warning diagnosticSource message] }
  | some op =>
    let diagnostics :=
      current.diagnostics ++ argumentRemark token op ++
        op.remarks current.mesh
    match op.transform current.mesh with
    | .ok mesh => .ok { mesh, diagnostics }
    | .error (.invalidParameter subject explanation) =>
      let message := subject ++ ": " ++ explanation ++ ", skipped"
      .ok
        { current with
          diagnostics := diagnostics ++ [.warning op.name message] }
    | .error error => .error error

/-- The operators applied from the last one written to the first. -/
def applyTokens (presets : Presets) (tokens : List Token)
    (start : Evaluation) : Except MeshError Evaluation :=
  tokens.foldrM (applyToken presets) start

end Notation

namespace Evaluation

/-- Computes the attributes of the result. -/
def refresh (evaluation : Evaluation) : Except MeshError Evaluation := do
  let mesh ← evaluation.mesh.refresh
  pure { evaluation with mesh }

/-- What is left of an evaluation once it has been stored: attributes are not
kept. -/
def stored (evaluation : Evaluation) : Evaluation :=
  { evaluation with mesh := { evaluation.mesh with attributes? := none } }

/-- The result for a text without a usable seed. -/
def withoutSeed (diagnostic : Diagnostic) : Except MeshError Evaluation :=
  refresh { mesh := .empty, diagnostics := [diagnostic] }

/-- The evaluation of the operators on the answer of the source of seeds. -/
def onAnswer (presets : Presets) (tokens : List Token) :
    Except MeshError Mesh → Except MeshError Evaluation
  | .ok seed => do
    let result ← Notation.applyTokens presets tokens
      { mesh := seed, diagnostics := [] }
    result.refresh
  | .error error =>
    match Notation.seedWarning? error with
    | some diagnostic => withoutSeed diagnostic
    | none => .error error

end Evaluation

/-- The evaluation of a text with seeds from a source with effects. -/
def evaluateWith {m : Type → Type} [Monad m] (presets : Presets)
    (seeds : SeedSource m) (text : String) :
    m (Except NotationError Evaluation) :=
  let parsed := Notation.decode text
  match parsed.parameter? with
  | none => pure (.error (.parameterTooLarge text))
  | some parameter =>
    match Notation.seedRequest presets parsed.seed? parameter with
    | .unusable diagnostic =>
        pure ((Evaluation.withoutSeed diagnostic).mapError .mesh)
    | .request seed n => do
      let answer ← seeds seed n
      pure
        ((Evaluation.onAnswer presets parsed.tokens answer).mapError .mesh)

/-- The evaluation of a text with the standard seeds. -/
def evaluate (presets : Presets) (text : String) :
    Except NotationError Evaluation :=
  Id.run (evaluateWith presets standardSeed text)

/-- The mesh that a text names. -/
def polyhedron (presets : Presets) (text : String) :
    Except NotationError Mesh :=
  Evaluation.mesh <$> evaluate presets text

/-- The meshes that several texts name, each on its own. -/
def polyhedra (presets : Presets) (texts : List String) :
    List (Except NotationError Mesh) :=
  texts.map (polyhedron presets)

end Polyhedra
