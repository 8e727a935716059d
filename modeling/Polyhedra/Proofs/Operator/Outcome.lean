import Mathlib
import Polyhedra.Notation.Basic
import Polyhedra.Operator.Basic
import Polyhedra.Proofs.Except
import Polyhedra.Proofs.Operator.Flags

/-!
# Outcomes of operators

What an operator answers on any mesh, polyhedral or not.  Only a subdivision
refuses its parameters, a mesh that is not in range is never made good, every
result is named after its input, and attributes that are stored in the input
do not count.
-/

namespace Polyhedra

/-- The computation does not fail because of a parameter. -/
def AcceptsParameters {α : Type} (x : Except MeshError α) : Prop :=
  ∀ subject explanation, x ≠ .error (.invalidParameter subject explanation)

namespace AcceptsParameters

variable {α β ε : Type}

theorem ok (a : α) : AcceptsParameters (.ok a) := by
  intro subject explanation h
  cases h

theorem bind {x : Except MeshError α} {f : α → Except MeshError β}
    (hx : AcceptsParameters x)
    (hf : ∀ a, AcceptsParameters (f a)) :
    AcceptsParameters (x >>= f) := by
  cases x with
  | ok a => exact hf a
  | error error =>
      intro subject explanation h
      exact hx subject explanation (by rw [Except.error.inj h])

theorem mapError {x : Except ε α} {toError : ε → MeshError}
    (h : ∀ error subject explanation,
      toError error ≠ .invalidParameter subject explanation) :
    AcceptsParameters (x.mapError toError) := by
  cases x with
  | ok a => exact ok a
  | error error =>
      intro subject explanation heq
      exact h error subject explanation (Except.error.inj heq)

theorem foldlM {f : β → α → Except MeshError β}
    (hf : ∀ b a, AcceptsParameters (f b a))
    (list : List α) (start : β) :
    AcceptsParameters (list.foldlM f start) := by
  induction list generalizing start with
  | nil => exact ok start
  | cons a rest ih =>
      rw [List.foldlM_cons]
      exact (hf start a).bind ih

end AcceptsParameters

/-! ## Results of blueprints -/

/-- Every mesh that the computation makes has the name, and no failure is
about a parameter. -/
structure Makes (name : String) (x : Except MeshError Mesh) : Prop where
  name_eq : ∀ out, x = .ok out → out.name = name
  accepts : AcceptsParameters x

theorem Makes.pure {name : String} {mesh : Mesh} (h : mesh.name = name) :
    Makes name (.ok mesh) where
  name_eq := by
    intro out hout
    cases hout
    exact h
  accepts := .ok mesh

theorem Makes.bind {α : Type} {name : String} {x : Except MeshError α}
    {f : α → Except MeshError Mesh}
    (hx : AcceptsParameters x)
    (hf : ∀ a, Makes name (f a)) :
    Makes name (x >>= f) where
  name_eq := by
    intro out hout
    obtain ⟨a, -, ha⟩ := Except.bind_eq_ok_iff.mp hout
    exact (hf a).name_eq out ha
  accepts := hx.bind fun a => (hf a).accepts

theorem FlagFault.toMeshError_ne {F K : Type} [ToString F] [ToString K]
    (fault : FlagFault F K) (subject explanation : String) :
    fault.toMeshError ≠ .invalidParameter subject explanation := by
  obtain ⟨face, fault⟩ := fault
  cases fault <;> simp [toMeshError, FaceFault.toMeshError]

namespace Blueprint

variable {F K : Type} [Ord F] [Ord K] [Std.TransOrd F] [Std.TransOrd K]
  [DecidableEq K] [ToString F] [ToString K]

theorem build_makes (blueprint : Blueprint F K) (name : String) :
    Makes name (blueprint.build name) := by
  have haccepted : AcceptsParameters blueprint.assembler := by
    apply AcceptsParameters.foldlM
    intro assembler keys
    unfold Assembler.addPolygon
    split
    · intro subject explanation h
      cases h
    · exact .ok _
  apply Makes.bind haccepted
  intro assembler
  exact .bind (.mapError FlagFault.toMeshError_ne) fun solid => .pure rfl

theorem buildLabelled_makes (blueprint : Blueprint FaceRole VertexRole)
    (name : String) :
    Makes name (blueprint.buildLabelled name) :=
  build_makes _ name

end Blueprint

namespace Mesh

variable (mesh : Mesh)

theorem requireInRange_accepts : AcceptsParameters mesh.requireInRange := by
  unfold requireInRange
  split <;> intro subject explanation h <;> cases h

theorem requireInRange_bind_error {mesh : Mesh} {α : Type}
    (h : ¬ mesh.InRange)
    (next : Unit → Except MeshError α) :
    (mesh.requireInRange >>= next) = .error .cornerOutOfRange := by
  unfold requireInRange
  rw [if_neg h]
  rfl

theorem ranged_build_makes {F K : Type} [Ord F] [Ord K] [Std.TransOrd F]
    [Std.TransOrd K] [DecidableEq K] [ToString F] [ToString K]
    (blueprint : Blueprint F K) (name : String) :
    Makes name (mesh.requireInRange >>= fun _ => blueprint.build name) :=
  .bind mesh.requireInRange_accepts fun _ => blueprint.build_makes name

theorem dual_makes : Makes (Word.dual mesh.name) mesh.dual := by
  apply Makes.bind mesh.requireInRange_accepts
  intro _
  apply Makes.bind
  · apply AcceptsParameters.mapError
    intro fault subject explanation h
    cases h
  · intro flags
    exact Blueprint.build_makes _ _

/-- How a subdivision ends. -/
theorem subdivide_cases (factor : ℕ) (tolerance : Float) (maxFactor : ℕ) :
    (∃ subject explanation, mesh.subdivide factor tolerance maxFactor =
        .error (.invalidParameter subject explanation)) ∨
      (¬ mesh.faces.Triangular ∧
        mesh.subdivide factor tolerance maxFactor = .ok mesh) ∨
      (mesh.faces.Triangular ∧ ¬ mesh.InRange ∧
        mesh.subdivide factor tolerance maxFactor =
          .error .cornerOutOfRange) ∨
      (mesh.faces.Triangular ∧ mesh.InRange ∧
        mesh.subdivide factor tolerance maxFactor =
          .ok (mesh.subdivideTriangles factor tolerance)) := by
  unfold subdivide
  by_cases hfactor : factor = 0 ∨ maxFactor < factor
  · exact .inl ⟨_, _, if_pos hfactor⟩
  rw [if_neg hfactor]
  by_cases htolerance : (!(tolerance > 0)) = true
  · exact .inl ⟨_, _, if_pos htolerance⟩
  rw [if_neg htolerance]
  by_cases htriangular : mesh.faces.Triangular
  · rw [if_neg (not_not.mpr htriangular)]
    by_cases hrange : mesh.InRange
    · exact .inr
        (.inr (.inr ⟨htriangular, hrange, requireInRange_bind hrange _⟩))
    · exact .inr (.inr
        (.inl ⟨htriangular, hrange, requireInRange_bind_error hrange _⟩))
  · exact .inr (.inl ⟨htriangular, if_pos htriangular⟩)

/-- The mesh without what a refresh stores. -/
def bare : Mesh :=
  { mesh with attributes? := none }

end Mesh

namespace Operator

variable {mesh : Mesh} {op : Operator}

/-- The number that the operator writes after its code: a filter unless it is
zero, and the factor of a subdivision. -/
def argument? : Operator → Option ℕ
  | kis sides _ | inset sides _ _ | extrude sides | loft sides _ |
      truncate sides _ =>
    if sides = 0 then none else some sides
  | subdivide factor .. => some factor
  | _ => none

/-- The operator in its canonical written form. -/
def token (op : Operator) : Token :=
  ⟨op.code, op.argument?⟩

/-- The name of what the operator makes of a mesh with the given name. -/
def wordOf (op : Operator) (name : String) : String :=
  match op with
  | dual => Word.dual name
  | _ => op.code.toString ++ (op.argument?.map toString).getD "" ++ name

theorem wordOf_eq (hcode : op.code ≠ 'd') (name : String) :
    op.wordOf name =
      op.code.toString ++ (op.argument?.map toString).getD "" ++ name := by
  cases op <;> first | rfl | exact absurd rfl hcode

theorem wordOf_eq_prepend {sides : ℕ}
    (hcode : op.code ≠ 'd')
    (h : op.argument? = if sides = 0 then none else some sides)
    (name : String) :
    op.wordOf name = Word.prepend op.code sides name := by
  rw [wordOf_eq hcode, h, Word.prepend]
  split <;> rfl

/-- Results are named after the mesh that the operator was applied to. -/
theorem transform_makes (hop : op.code ≠ 'u') :
    Makes (op.wordOf mesh.name) (op.transform mesh) := by
  cases op with
  | dual => exact mesh.dual_makes
  | ambo | gyro | propellor | chamfer | whirl | quinto | perspectiva =>
      exact mesh.ranged_build_makes _ _
  | kis | inset | extrude | loft =>
      rw [wordOf_eq_prepend (by simp [code]) rfl]
      exact mesh.ranged_build_makes _ _
  | hollow =>
      exact .bind mesh.requireInRange_accepts fun _ =>
        .bind mesh.dual_makes.accepts fun _ =>
          Blueprint.buildLabelled_makes _ _
  | reflect => exact .pure rfl
  | subdivide => exact absurd rfl hop
  | truncate =>
      rw [wordOf_eq_prepend (by simp [code]) rfl]
      exact .bind mesh.dual_makes.accepts fun around =>
        .bind (around.ranged_build_makes _ _).accepts fun raised =>
          .bind raised.dual_makes.accepts fun _ => .pure rfl

/-- Only a subdivision refuses its parameters, and it does so without a
remark. -/
theorem of_invalidParameter {subject explanation : String}
    (h :
      op.transform mesh = .error (.invalidParameter subject explanation)) :
    op.code = 'u' ∧ op.readsNumber = true ∧ op.remarks mesh = [] := by
  by_cases hop : op.code = 'u'
  · cases op with
    | subdivide factor tolerance maxFactor =>
        have hrefused : mesh.subdivide factor tolerance maxFactor =
            .error (.invalidParameter subject explanation) := h
        refine ⟨rfl, rfl, ?_⟩
        by_cases htriangular : mesh.faces.Triangular <;>
          simp [remarks, htriangular, hrefused]
    | _ => simp [code] at hop
  · exact absurd h ((transform_makes hop).accepts subject explanation)

/-! ## Stored attributes -/

/-- Attributes that were stored earlier do not reach the result of an
operator. -/
theorem transform_bare (op : Operator) (mesh : Mesh) :
    (op.transform mesh.bare).map Mesh.bare =
      (op.transform mesh).map Mesh.bare := by
  cases op with
  | subdivide factor tolerance maxFactor =>
      change (mesh.bare.subdivide factor tolerance maxFactor).map Mesh.bare =
        (mesh.subdivide factor tolerance maxFactor).map Mesh.bare
      have hfaces : mesh.bare.faces = mesh.faces := rfl
      unfold Mesh.subdivide
      rw [hfaces]
      split_ifs <;> rfl
  | _ => rfl

theorem remarks_bare (op : Operator) (mesh : Mesh) :
    op.remarks mesh.bare = op.remarks mesh := by
  cases op with
  | subdivide factor tolerance maxFactor =>
      have hfaces : mesh.bare.faces = mesh.faces := rfl
      have hsame :
          (mesh.bare.subdivide factor tolerance maxFactor).map Mesh.bare =
            (mesh.subdivide factor tolerance maxFactor).map Mesh.bare :=
        transform_bare (subdivide factor tolerance maxFactor) mesh
      unfold remarks
      simp only [hfaces]
      split
      · rfl
      · cases hbare : mesh.bare.subdivide factor tolerance maxFactor <;>
          cases hfull : mesh.subdivide factor tolerance maxFactor <;>
          simp_all [Except.map, Mesh.bare]
  | _ => rfl

/-! ## Meshes out of range -/

theorem not_inRange_reflect (h : ¬ mesh.InRange) :
    ¬ mesh.reflect.InRange := by
  intro hrange
  apply h
  intro face hface v hv
  have hflipped : face.reverse ∈ mesh.reflect.faces :=
    List.mem_map_of_mem hface
  have hlt := hrange _ hflipped v (List.mem_reverse.mpr hv)
  simpa [Mesh.reflect, Mesh.vertexCount] using hlt

theorem transform_of_not_inRange (op : Operator) (h : ¬ mesh.InRange) :
    op.transform mesh = .error .cornerOutOfRange ∨
      (∃ out, op.transform mesh = .ok out ∧ ¬ out.InRange) ∨
      ∃ subject explanation, op.transform mesh =
        .error (.invalidParameter subject explanation) := by
  cases op with
  | reflect => exact .inr (.inl ⟨_, rfl, not_inRange_reflect h⟩)
  | subdivide factor tolerance maxFactor =>
      rcases mesh.subdivide_cases factor tolerance maxFactor with
        hrefused | ⟨-, hidle⟩ | ⟨-, -, hrange⟩ | ⟨-, hrange, -⟩
      · exact .inr (.inr hrefused)
      · exact .inr (.inl ⟨mesh, hidle, h⟩)
      · exact .inl hrange
      · exact absurd hrange h
  | truncate sides height =>
      left
      have hdual : mesh.dual = .error .cornerOutOfRange :=
        Mesh.requireInRange_bind_error h _
      change mesh.truncate sides height = _
      unfold Mesh.truncate
      rw [hdual]
      rfl
  | _ => exact .inl (Mesh.requireInRange_bind_error h _)

end Operator
end Polyhedra
