import Mathlib
import Polyhedra.Operator.Reflection
import Polyhedra.Proofs.Operator.Flags

/-!
# Point reflection

Writing every face backwards turns all its edges around.  Nothing in the
conditions on a polyhedral incidence prefers one direction.
-/

namespace Polyhedra

namespace Incidence

variable {F K : Type} {R : Incidence F K}

/-- Every edge in the other direction. -/
def reverse (R : Incidence F K) : Incidence F K := fun f v w => R f w v

theorem around_reverse {v : K} {f g : F} :
    R.reverse.Around v f g ↔ R.Around v g f :=
  exists_congr fun _ => and_comm

theorem Closed.tails_reverse (hR : R.Closed) :
    R.reverse.tails = R.tails := by
  ext v
  constructor
  · rintro ⟨f, w, h⟩
    exact hR.head_mem_tails h
  · rintro ⟨f, w, h⟩
    obtain ⟨u, hu⟩ := hR.prev h
    exact ⟨f, u, hu⟩

theorem faces_reverse : R.reverse.faces = R.faces := by
  ext f
  exact exists_comm

theorem ncard_flags_reverse : R.reverse.flags.ncard = R.flags.ncard := by
  apply ncard_eq_of_matching fun (flag other : F × K × K) => other =
    (flag.1, flag.2.2, flag.2.1)
  · rintro ⟨f, v, w⟩ h
    exact ⟨_, h, rfl⟩
  · rintro ⟨f, v, w⟩ h
    exact ⟨(f, w, v), h, rfl⟩
  · grind
  · grind

theorem Closed.reverse (hR : R.Closed) : R.reverse.Closed where
  permutes f := (hR.permutes f).swap
  turn {f} := (hR.isCycle f).swap.turn
  owner_unique := hR.owner_unique
  mate := hR.mate

theorem Polyhedral.reverse (hR : R.Polyhedral) : R.reverse.Polyhedral where
  toClosed := hR.toClosed.reverse
  fan := by
    intro f g v w w' h h'
    obtain ⟨x, hx⟩ := hR.next h
    obtain ⟨x', hx'⟩ := hR.next h'
    apply eqvGen_transport Eq _ _ (hR.fan hx hx') rfl rfl
    · rintro x _ _ rfl rfl
      exact .refl _
    · intro i j hij
      exact ⟨i, j, rfl, rfl, .symm _ _ (.rel _ _ (around_reverse.mpr hij))⟩
  shared := by
    intro f g v w v' w' h h' k k'
    obtain rfl := hR.shared h h' k k'
    exact hR.head_unique h k

theorem Closed.doubleEuler_reverse (hR : R.Closed) :
    R.reverse.doubleEuler = R.doubleEuler := by
  unfold doubleEuler
  rw [hR.tails_reverse, faces_reverse, ncard_flags_reverse]

end Incidence

theorem Surface.incidence_flip {surface : Surface} :
    surface.flip.incidence = surface.incidence.reverse := by
  ext i v w
  unfold Incidence.reverse Surface.incidence
  simp only [flip, List.getElem?_map, Option.map_eq_some_iff]
  constructor
  · rintro ⟨_, ⟨face, hface, rfl⟩, hedge⟩
    exact ⟨face, hface, Face.mem_edges_reverse.mp hedge⟩
  · rintro ⟨face, hface, hedge⟩
    exact ⟨_, ⟨face, hface, rfl⟩, Face.mem_edges_reverse.mpr hedge⟩

/-- Reflection keeps a mesh polyhedral and its Euler characteristic. -/
theorem Mesh.Polyhedral.reflect {mesh : Mesh} (h : mesh.Polyhedral) :
    mesh.reflect.Polyhedral ∧
      mesh.reflect.eulerCharacteristic = mesh.eulerCharacteristic := by
  have hpoly := h.incidence
  have hincidence :
      mesh.reflect.faces.incidence = mesh.faces.incidence.reverse :=
    Surface.incidence_flip
  have hcount : mesh.reflect.vertexCount = mesh.vertexCount := Array.size_map
  have hreflect : mesh.reflect.Polyhedral := by
    apply Surface.polyhedral_iff.mpr
    refine ⟨?_, ?_, ?_⟩
    · rw [hincidence]
      exact hpoly.reverse
    · intro face hface
      obtain ⟨other, hother, rfl⟩ := List.mem_map.mp hface
      exact ⟨List.nodup_reverse.mpr (h.simple other hother),
        List.reverse_eq_nil_iff.not.mpr (h.face_ne_nil hother)⟩
    · rw [hincidence, hpoly.toClosed.tails_reverse, h.tails_eq, hcount]
  have hdouble := hreflect.two_mul_eulerCharacteristic
  rw [hincidence, hpoly.toClosed.doubleEuler_reverse,
    ← h.two_mul_eulerCharacteristic] at hdouble
  exact ⟨hreflect, by omega⟩

end Polyhedra
