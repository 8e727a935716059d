import Mathlib
import Polyhedra.Proofs.Notation.Composition
import Polyhedra.Proofs.Operator.Invariance
import Polyhedra.Proofs.Subdivision.Polyhedral

/-!
# Chains of operators

A text applies its operators one after the other, so what every operator
keeps holds for the result of a chain of any length.  Codes without a meaning
are skipped, and a text without a seed stands for the empty mesh, which is
polyhedral as well.  A subdivision keeps the mesh polyhedral when it welds
faithfully.
-/

namespace Polyhedra

namespace Operator

variable {mesh : Mesh} {op : Operator}

/-- A subdivision that has triangles to cut welds their lattice points
faithfully. -/
def Faithful (mesh : Mesh) : Operator → Prop
  | subdivide factor tolerance _ =>
      mesh.faces.Triangular → mesh.WeldsFaithfully factor tolerance
  | _ => True

theorem faithful_of_code_ne (h : op.code ≠ 'u') : op.Faithful mesh := by
  cases op with
  | subdivide => exact absurd rfl h
  | _ => trivial

theorem eulerCharacteristic_of_code_ne (h : op.code ≠ 'H') :
    op.eulerCharacteristic mesh = mesh.eulerCharacteristic := by
  cases op with
  | hollow => exact absurd rfl h
  | _ => rfl

/-- An operator is refused, which only happens to a subdivision, or keeps the
mesh polyhedral. -/
theorem refused_or_exists_transform
    (h : mesh.Polyhedral)
    (hfits : op.Fits mesh)
    (hfaithful : op.Faithful mesh) :
    (∃ subject explanation,
        op.transform mesh = .error (.invalidParameter subject explanation)) ∨
      ∃ out, op.transform mesh = .ok out ∧ out.Polyhedral ∧
        out.eulerCharacteristic = op.eulerCharacteristic mesh := by
  cases op with
  | subdivide factor tolerance maxFactor =>
      exact h.subdivide hfaithful maxFactor
  | _ => exact .inr (exists_transform h (by simp [code]) hfits)

end Operator

namespace Notation

variable {presets : Presets} {token : Token} {tokens : List Token}
  {start current : Evaluation}

/-- Every operator that is applied on the way fits its keys. -/
def Fits (presets : Presets) (start : Evaluation) : List Token → Prop
  | [] => True
  | token :: rest =>
      Fits presets start rest ∧
        ∀ current op, applyTokens presets rest start = .ok current →
          Operator.ofCode? token.code token.argument? presets = some op →
          op.Fits current.mesh

/-- Every subdivision that is applied on the way welds faithfully. -/
def Faithful (presets : Presets) (start : Evaluation) : List Token → Prop
  | [] => True
  | token :: rest =>
      Faithful presets start rest ∧
        ∀ current op, applyTokens presets rest start = .ok current →
          Operator.ofCode? token.code token.argument? presets = some op →
          op.Faithful current.mesh

theorem faithful_of_codes (hcodes : ∀ token ∈ tokens, token.code ≠ 'u') :
    Faithful presets start tokens := by
  induction tokens with
  | nil => trivial
  | cons token rest ih =>
      refine ⟨ih fun other hother => hcodes other (.tail _ hother),
        fun current op _ hop => ?_⟩
      exact Operator.faithful_of_code_ne
        (Operator.code_of_ofCode? hop ▸ hcodes token (.head _))

/-- One token keeps the mesh polyhedral, and but for hollow its Euler
characteristic. -/
theorem exists_applyToken
    (h : current.mesh.Polyhedral)
    (hfits :
      ∀ op, Operator.ofCode? token.code token.argument? presets = some op →
        op.Fits current.mesh)
    (hfaithful :
      ∀ op, Operator.ofCode? token.code token.argument? presets = some op →
        op.Faithful current.mesh) :
    ∃ next, applyToken presets token current = .ok next ∧
      next.mesh.Polyhedral ∧
      (token.code ≠ 'H' → next.mesh.eulerCharacteristic =
        current.mesh.eulerCharacteristic) := by
  cases hop : Operator.ofCode? token.code token.argument? presets with
  | none =>
      obtain ⟨warning, -, happly⟩ := applyToken_of_unknown hop
      exact ⟨_, happly, h, fun _ => rfl⟩
  | some op =>
      rcases Operator.refused_or_exists_transform h (hfits op hop)
        (hfaithful op hop) with
        ⟨subject, explanation, hrefused⟩ | ⟨out, hout, hpoly, heuler⟩
      · obtain ⟨warning, -, happly⟩ :=
          applyToken_of_invalidParameter hop hrefused
        exact ⟨_, happly, h, fun _ => rfl⟩
      · refine ⟨_, applyToken_of_transform hop hout, hpoly,
          fun hcode => heuler.trans ?_⟩
        exact Operator.eulerCharacteristic_of_code_ne
          (Operator.code_of_ofCode? hop ▸ hcode)

/-- A chain of operators keeps the mesh polyhedral, and without hollow its
Euler characteristic. -/
theorem exists_applyTokens
    (h : start.mesh.Polyhedral)
    (hfits : Fits presets start tokens)
    (hfaithful : Faithful presets start tokens) :
    ∃ result, applyTokens presets tokens start = .ok result ∧
      result.mesh.Polyhedral ∧
      ((∀ token ∈ tokens, token.code ≠ 'H') →
        result.mesh.eulerCharacteristic =
          start.mesh.eulerCharacteristic) := by
  induction tokens with
  | nil => exact ⟨start, rfl, h, fun _ => rfl⟩
  | cons token rest ih =>
      obtain ⟨hrest, hfirst⟩ := hfits
      obtain ⟨hrest', hfirst'⟩ := hfaithful
      obtain ⟨current, hcurrent, hpoly, heuler⟩ := ih hrest hrest'
      obtain ⟨next, hnext, hnextPoly, hnextEuler⟩ :=
        exists_applyToken hpoly (fun op => hfirst current op hcurrent)
          fun op => hfirst' current op hcurrent
      refine ⟨next, ?_, hnextPoly, fun hcodes => ?_⟩
      · rw [applyTokens_cons, hcurrent]
        exact hnext
      · rw [hnextEuler (hcodes token (.head _)),
          heuler fun other hother => hcodes other (.tail _ hother)]

end Notation

/-- The empty mesh is polyhedral. -/
theorem Mesh.polyhedral_empty : Mesh.empty.Polyhedral := by
  apply Surface.polyhedral_of_rings [] <;> decide

namespace Evaluation

/-- Computing the attributes succeeds on a polyhedral mesh and does not
change its faces. -/
theorem exists_refresh {evaluation : Evaluation}
    (h : evaluation.mesh.Polyhedral) :
    ∃ result, evaluation.refresh = .ok result ∧ result.mesh.Polyhedral ∧
      result.mesh.eulerCharacteristic =
        evaluation.mesh.eulerCharacteristic :=
  ⟨{ evaluation with
    mesh :=
      { evaluation.mesh with
        attributes? := some evaluation.mesh.attributes } },
    refresh_of_inRange h.inRange, h, rfl⟩

theorem exists_withoutSeed (diagnostic : Diagnostic) :
    ∃ result, withoutSeed diagnostic = .ok result ∧
      result.mesh.Polyhedral := by
  let evaluation : Evaluation :=
    { mesh := .empty, diagnostics := [diagnostic] }
  have hempty : evaluation.mesh.Polyhedral := Mesh.polyhedral_empty
  obtain ⟨result, hresult, hpoly, -⟩ := exists_refresh hempty
  exact ⟨result, hresult, hpoly⟩

end Evaluation

/-- Every answer is a polyhedral mesh or a refusal that makes the seed
unusable. -/
def SeedSource.Polyhedral (seeds : SeedSource Id) : Prop :=
  ∀ seed n, (∃ mesh, seeds seed n = .ok mesh ∧ mesh.Polyhedral) ∨
    ∃ error diagnostic, seeds seed n = .error error ∧
      Notation.seedWarning? error = some diagnostic

/-- A text whose parameter fits starts from a polyhedral mesh or has no
usable seed. -/
theorem SeedSource.Polyhedral.opening {seeds : SeedSource Id}
    (h : seeds.Polyhedral)
    (presets : Presets) {parsed : Notation}
    (hparameter : parsed.parameter? ≠ none) :
    (∃ mesh, parsed.opening presets seeds = .seed mesh ∧ mesh.Polyhedral) ∨
      ∃ diagnostic, parsed.opening presets seeds = .unusable diagnostic := by
  obtain ⟨parameter, hsome⟩ := Option.ne_none_iff_exists'.mp hparameter
  unfold Notation.opening
  simp only [hsome]
  cases Notation.seedRequest presets parsed.seed? parameter with
  | unusable diagnostic => exact .inr ⟨diagnostic, rfl⟩
  | request seed n =>
      rcases h seed n with ⟨mesh, hmesh, hpoly⟩ |
        ⟨error, diagnostic, herror, hwarning⟩
      · simp only [hmesh]
        exact .inl ⟨mesh, rfl, hpoly⟩
      · simp only [herror, hwarning]
        exact .inr ⟨diagnostic, rfl⟩

/-- With a source of polyhedral seeds every text names a polyhedral mesh,
when the operators fit their keys on the seed that the text asks for and the
subdivisions weld faithfully.  Without hollow the mesh has the Euler
characteristic of the seed. -/
theorem exists_evaluateWith_of_faithful {presets : Presets}
    {seeds : SeedSource Id} {text : String}
    (hparameter : (Notation.decode text).parameter? ≠ none)
    (hseeds : seeds.Polyhedral)
    (hfits :
      ∀ mesh, (Notation.decode text).opening presets seeds = .seed mesh →
        Notation.Fits presets { mesh, diagnostics := [] }
          (Notation.decode text).tokens)
    (hfaithful :
      ∀ mesh, (Notation.decode text).opening presets seeds = .seed mesh →
        Notation.Faithful presets { mesh, diagnostics := [] }
          (Notation.decode text).tokens) :
    ∃ result, evaluateWith presets seeds text = .ok result ∧
      result.mesh.Polyhedral ∧
      ∀ mesh, (Notation.decode text).opening presets seeds = .seed mesh →
        (∀ token ∈ (Notation.decode text).tokens, token.code ≠ 'H') →
        result.mesh.eulerCharacteristic = mesh.eulerCharacteristic := by
  rw [evaluateWith_eq]
  rcases hseeds.opening presets hparameter with ⟨mesh, hmesh, hpoly⟩ |
    ⟨diagnostic, hunusable⟩
  · let start : Evaluation := { mesh, diagnostics := [] }
    have hstart : start.mesh.Polyhedral := hpoly
    obtain ⟨current, hcurrent, hcurrentPoly, heuler⟩ :=
      Notation.exists_applyTokens hstart (hfits mesh hmesh)
        (hfaithful mesh hmesh)
    obtain ⟨result, hresult, hresultPoly, hsame⟩ :=
      Evaluation.exists_refresh hcurrentPoly
    refine ⟨result, ?_, hresultPoly, fun other hother hcodes => ?_⟩
    · simp only [hmesh]
      rw [hcurrent]
      change current.refresh.mapError _ = _
      rw [hresult]
      rfl
    · obtain rfl := Opening.seed.inj (hmesh.symm.trans hother)
      exact hsame.trans (heuler hcodes)
  · obtain ⟨result, hresult, hpoly⟩ :=
      Evaluation.exists_withoutSeed diagnostic
    refine ⟨result, ?_, hpoly, fun mesh hmesh => ?_⟩
    · simp only [hunusable, hresult]
      rfl
    · rw [hunusable] at hmesh
      cases hmesh

/-- Texts without subdivisions have nothing to weld. -/
theorem exists_evaluateWith {presets : Presets} {seeds : SeedSource Id}
    {text : String}
    (hparameter : (Notation.decode text).parameter? ≠ none)
    (hcodes : ∀ token ∈ (Notation.decode text).tokens, token.code ≠ 'u')
    (hseeds : seeds.Polyhedral)
    (hfits :
      ∀ mesh, (Notation.decode text).opening presets seeds = .seed mesh →
        Notation.Fits presets { mesh, diagnostics := [] }
          (Notation.decode text).tokens) :
    ∃ result, evaluateWith presets seeds text = .ok result ∧
      result.mesh.Polyhedral := by
  obtain ⟨result, hresult, hpoly, -⟩ :=
    exists_evaluateWith_of_faithful hparameter hseeds hfits fun _ _ =>
      Notation.faithful_of_codes hcodes
  exact ⟨result, hresult, hpoly⟩

/-- Every operator but the subdivision makes a polyhedral mesh of a
polyhedral mesh and changes the Euler characteristic only in the case of
hollow, and so does every text that is evaluated on polyhedral seeds,
whatever the parameters are. -/
theorem operators_keep_polyhedral :
    (∀ (mesh : Mesh) (op : Operator), mesh.Polyhedral → op.code ≠ 'u' →
        op.Fits mesh → ∃ out, op.transform mesh = .ok out ∧ out.Polyhedral ∧
          out.eulerCharacteristic = op.eulerCharacteristic mesh) ∧
      ∀ (presets : Presets) (seeds : SeedSource Id) (text : String),
        (Notation.decode text).parameter? ≠ none →
        (∀ token ∈ (Notation.decode text).tokens, token.code ≠ 'u') →
        seeds.Polyhedral →
        (∀ mesh, (Notation.decode text).opening presets seeds = .seed mesh →
          Notation.Fits presets { mesh, diagnostics := [] }
            (Notation.decode text).tokens) →
        ∃ result, evaluateWith presets seeds text = .ok result ∧
          result.mesh.Polyhedral :=
  ⟨fun _ _ h hop hfits => Operator.exists_transform h hop hfits,
    fun _ _ _ hparameter hcodes hseeds hfits =>
      exists_evaluateWith hparameter hcodes hseeds hfits⟩

/-- The hollow tetrahedron, and the tetrahedron with a pyramid on every face
by its name. -/
theorem operators_keep_tetrahedron :
    (∃ out, Operator.transform (Platonic.tetrahedron.named "T")
          (.hollow 0.5 0.1) = .ok out ∧ out.Polyhedral ∧
        out.eulerCharacteristic = -4) ∧
      ∃ result, evaluateWith (m := Id) {}
        (fun _ _ => .ok (Platonic.tetrahedron.named "T")) "kT" = .ok result ∧
        result.mesh.Polyhedral := by
  have hpoly : (Platonic.tetrahedron.named "T").Polyhedral :=
    Surface.polyhedral_tetrahedron
  have hfits : (Platonic.tetrahedron.named "T").Fits := by
    change 4 + 4 ≤ IndexKey.maxIndex
    decide
  have htokens : (Notation.decode "kT").tokens = [⟨'k', none⟩] := by decide
  constructor
  · have heuler :
        (Platonic.tetrahedron.named "T").eulerCharacteristic = 2 := by
      decide
    obtain ⟨out, hout, houtPoly, hcount⟩ :=
      operators_keep_polyhedral.1 _ (.hollow 0.5 0.1) hpoly (by decide) hfits
    refine ⟨out, hout, houtPoly, hcount.trans ?_⟩
    change 2 * Mesh.eulerCharacteristic _ - 2 * 4 = -4
    rw [heuler]
    decide
  · apply operators_keep_polyhedral.2
    · decide
    · rw [htokens]
      decide
    · exact fun _ _ => .inl ⟨_, rfl, hpoly⟩
    · intro mesh hmesh
      have hopening : (Notation.decode "kT").opening {}
          (fun _ _ => .ok (Platonic.tetrahedron.named "T")) =
            .seed (Platonic.tetrahedron.named "T") := by rfl
      obtain rfl := Opening.seed.inj (hmesh.symm.trans hopening)
      rw [htokens]
      refine ⟨trivial, ?_⟩
      rintro _ op ⟨⟩ ⟨⟩
      exact hfits

end Polyhedra
