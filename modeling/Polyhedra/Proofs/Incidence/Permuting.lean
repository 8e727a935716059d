import Mathlib
import Polyhedra.Proofs.Incidence.Cycle

/-!
# Faces of several cycles

A face whose flags lead from each of its vertices to one other, and to each
from one other, is made of cycles; it need not be a single one.  Around the
vertices of a closed incidence the faces are always permuted in this way, and
what is wrong with a vertex is that there are several cycles.
-/

namespace Polyhedra
namespace Incidence

variable {F K G L : Type} {R : Incidence F K}

namespace Permuting

variable (hR : R.Permuting) {onFace : F → G} {onKey : K → L}
include hR

/-- A face that is one cycle is one cycle under other names, and no other
face is. -/
theorem isCycle_rename_iff
    (hface : Set.InjOn onFace R.faces)
    (hkey : Set.InjOn onKey R.tails)
    {f : F}
    (hf : f ∈ R.faces) :
    IsCycle (R.rename onFace onKey (onFace f)) ↔ IsCycle (R f) := by
  have hflag : ∀ {x y}, R.rename onFace onKey (onFace f) x y ↔
      ∃ v w, R f v w ∧ onKey v = x ∧ onKey w = y :=
    rename_iff_of_mem_faces hface hf
  constructor
  · intro h
    apply h.transport fun x v => v ∈ R.tails ∧ onKey v = x
    · intro v w
      constructor
      · intro hvw
        exact ⟨_, _, hflag.mpr ⟨v, w, hvw, rfl, rfl⟩, ⟨mem_tails hvw, rfl⟩,
          hR.head_mem_tails hvw, rfl⟩
      · rintro ⟨_, _, hxy, ⟨hv, rfl⟩, hw, rfl⟩
        obtain ⟨v', w', hvw, hv', hw'⟩ := hflag.mp hxy
        obtain rfl := hkey (mem_tails hvw) hv hv'
        obtain rfl := hkey (hR.head_mem_tails hvw) hw hw'
        exact hvw
    · intro x y hxy
      obtain ⟨v, w, hvw, rfl, -⟩ := hflag.mp hxy
      exact ⟨v, mem_tails hvw, rfl⟩
    · rintro x v w ⟨hv, rfl⟩ ⟨hw, heq⟩
      exact (hkey hw hv heq).symm
    · rintro x y v ⟨-, rfl⟩ ⟨-, rfl⟩
      rfl
  · intro h
    apply h.transport fun v x => v ∈ R.tails ∧ onKey v = x
    · intro x y
      rw [hflag]
      constructor
      · rintro ⟨v, w, hvw, rfl, rfl⟩
        exact ⟨v, w, hvw, ⟨mem_tails hvw, rfl⟩, hR.head_mem_tails hvw, rfl⟩
      · rintro ⟨v, w, hvw, ⟨-, rfl⟩, -, rfl⟩
        exact ⟨v, w, hvw, rfl, rfl⟩
    · intro v w hvw
      exact ⟨_, mem_tails hvw, rfl⟩
    · rintro v x y ⟨-, rfl⟩ ⟨-, rfl⟩
      rfl
    · rintro v w x ⟨hv, rfl⟩ ⟨hw, heq⟩
      exact (hkey hw hv heq).symm

end Permuting
end Incidence
end Polyhedra
