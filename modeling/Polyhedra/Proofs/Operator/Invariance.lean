import Mathlib
import Polyhedra.Operator.Basic
import Polyhedra.Proofs.Operator.Ambo
import Polyhedra.Proofs.Operator.Chamfer
import Polyhedra.Proofs.Operator.Gyro
import Polyhedra.Proofs.Operator.Hollow
import Polyhedra.Proofs.Operator.Inset
import Polyhedra.Proofs.Operator.Kis
import Polyhedra.Proofs.Operator.Perspectiva
import Polyhedra.Proofs.Operator.Propellor
import Polyhedra.Proofs.Operator.Quinto
import Polyhedra.Proofs.Operator.Reflection
import Polyhedra.Proofs.Operator.Whirl

/-!
# What operators keep

All operators but the subdivision make polyhedral meshes of polyhedral meshes
and keep the Euler characteristic, except that hollow cuts a hole for every
face.
-/

namespace Polyhedra

theorem Mesh.truncate_eq_ok {mesh around raised cut : Mesh} {sides : ℕ}
    {height : Float}
    (haround : mesh.dual = .ok around)
    (hraised : around.kis sides height = .ok raised)
    (hcut : raised.dual = .ok cut) :
    mesh.truncate sides height =
      .ok (cut.rename (Word.prepend 't' sides mesh.name)) := by
  unfold Mesh.truncate
  rw [haround]
  change (around.kis sides height >>= _) = _
  rw [hraised]
  change (raised.dual >>= _) = _
  rw [hcut]
  rfl

/-- Truncation is kis between two duals, so the mesh in between has to fit as
well. -/
theorem Mesh.Polyhedral.truncate {mesh : Mesh}
    (h : mesh.Polyhedral)
    (hfits : mesh.Fits)
    {sides : ℕ} {height : Float}
    (hraised : ∀ around raised, mesh.dual = .ok around →
      around.kis sides height = .ok raised → raised.Fits) :
    ∃ out, mesh.truncate sides height = .ok out ∧ out.Polyhedral ∧
      out.eulerCharacteristic = mesh.eulerCharacteristic := by
  unfold Fits at hfits
  obtain ⟨around, haround, hdual⟩ := h.exists_dual (by omega) (by omega)
  have haroundFits : around.Fits := by
    unfold Fits
    rw [hdual.vertexCount, hdual.faceCount]
    omega
  obtain ⟨raised, hkis, hraisedPoly, hraisedEuler⟩ :=
    (hdual.polyhedral h).kis haroundFits sides height
  obtain ⟨cut, hcut, hcutPoly, hcutEuler⟩ :=
    hraisedPoly.dual (hraised around raised haround hkis)
  exact ⟨cut.rename (Word.prepend 't' sides mesh.name),
    truncate_eq_ok haround hkis hcut, hcutPoly,
    hcutEuler.trans (hraisedEuler.trans (hdual.eulerCharacteristic h))⟩

namespace Operator

/-- All indices that the operator puts into keys fit their slots. -/
def Fits (mesh : Mesh) : Operator → Prop
  | truncate sides height =>
      mesh.Fits ∧
        ∀ around raised, mesh.dual = .ok around →
          around.kis sides height = .ok raised → raised.Fits
  | _ => mesh.Fits

/-- The Euler characteristic of the result. -/
def eulerCharacteristic (mesh : Mesh) : Operator → ℤ
  | hollow .. => 2 * mesh.eulerCharacteristic - 2 * mesh.faceCount
  | _ => mesh.eulerCharacteristic

theorem exists_transform {mesh : Mesh}
    (h : mesh.Polyhedral)
    {op : Operator}
    (hop : op.code ≠ 'u')
    (hfits : op.Fits mesh) :
    ∃ out, op.transform mesh = .ok out ∧ out.Polyhedral ∧
      out.eulerCharacteristic = op.eulerCharacteristic mesh := by
  cases op with
  | dual => exact h.dual hfits
  | ambo => exact h.ambo hfits
  | gyro => exact h.gyro
  | propellor => exact h.propellor
  | kis sides height => exact h.kis hfits sides height
  | chamfer depth => exact h.chamfer hfits depth
  | whirl => exact h.whirl
  | quinto => exact h.quinto hfits
  | inset sides fraction offset => exact h.moveFaces sides fraction offset _
  | extrude sides => exact h.moveFaces sides 0 extrudeOffset _
  | loft sides fraction => exact h.moveFaces sides fraction 0 _
  | hollow fraction thickness => exact h.hollow hfits fraction thickness
  | perspectiva => exact h.perspectiva
  | reflect => exact ⟨_, rfl, h.reflect⟩
  | subdivide => exact absurd rfl hop
  | truncate sides height => exact h.truncate hfits.1 hfits.2

theorem code_of_ofCode? {code : Char} {argument? : Option ℕ}
    {presets : Presets} {op : Operator}
    (h : ofCode? code argument? presets = some op) : op.code = code := by
  unfold ofCode? at h
  split at h <;> cases h <;> rfl

end Operator
end Polyhedra
