import Mathlib
import Polyhedra.Proofs.Surface.Polyhedral

/-!
# Deciding whether a surface is polyhedral

Every condition on a polyhedral surface speaks about the faces in the list,
so it can be decided once the rings of faces around the vertices are given.
-/

namespace Polyhedra
namespace Surface

variable {surface : Surface}

theorem forall_getElem?_iff {p : ℕ → Face → Prop} :
    (∀ i face, surface[i]? = some face → p i face) ↔
      ∀ entry ∈ surface.indexed, p entry.2 entry.1 := by
  constructor
  · intro h entry hentry
    exact h _ _ (mem_indexed_iff.mp hentry)
  · intro h i face hface
    exact h (face, i) (mem_indexed_iff.mpr hface)

theorem ringAt_iff {v : ℕ} {ring : List ℕ} :
    surface.RingAt v ring ↔ ring.Nodup ∧ (∀ i ∈ ring, i < surface.length) ∧
      (∀ entry ∈ surface.indexed, entry.2 ∈ ring ↔ v ∈ entry.1) ∧
      ∀ step ∈ Face.steps ring, ∃ edge ∈ (surface.getD step.2 []).edges,
        edge.1 = v ∧ edge.swap ∈ (surface.getD step.1 []).edges := by
  have hincidence : ∀ {i v w}, surface.incidence i v w ↔
      (v, w) ∈ (surface.getD i []).edges := by
    intro i v w
    rw [List.getD_eq_getElem?_getD]
    cases hface : surface[i]? with
    | none => simp [incidence, hface, Face.edges]
    | some face => exact incidence_iff_of_getElem? hface
  constructor
  · intro h
    refine ⟨h.nodup, fun i hi => ?_, ?_, ?_⟩
    · obtain ⟨face, hface, -⟩ := (h.mem_iff i).mp hi
      exact (List.getElem?_eq_some_iff.mp hface).1
    · rw [← forall_getElem?_iff (p := fun i face => i ∈ ring ↔ v ∈ face)]
      intro i face hface
      rw [h.mem_iff i]
      simp [hface]
    · intro step hstep
      obtain ⟨w, hafter, hbefore⟩ := h.around step.1 step.2 hstep
      exact ⟨(v, w), hincidence.mp hafter, rfl, hincidence.mp hbefore⟩
  · rintro ⟨hnodup, hrange, hmem, hstep⟩
    refine ⟨hnodup, fun i => ?_, fun before after h => ?_⟩
    · constructor
      · intro hi
        have hface := List.getElem?_eq_getElem (hrange i hi)
        exact ⟨_, hface, (hmem (_, i) (mem_indexed_iff.mpr hface)).mp hi⟩
      · rintro ⟨face, hface, hv⟩
        exact (hmem (face, i) (mem_indexed_iff.mpr hface)).mpr hv
    · obtain ⟨⟨_, w⟩, hedge, rfl, hswap⟩ := hstep _ h
      exact ⟨w, hincidence.mpr hedge, hincidence.mpr hswap⟩

instance (v : ℕ) (ring : List ℕ) : Decidable (surface.RingAt v ring) :=
  decidable_of_iff' _ ringAt_iff

/-- The conditions of the check of closedness, on the faces in the list. -/
theorem checkClosed_of_indexed
    (hlong : ∀ face ∈ surface, 3 ≤ face.length)
    (honce : (surface.flatMap Face.edges).Nodup)
    (hmate : ∀ entry ∈ surface.indexed, ∀ edge ∈ entry.1.edges,
      ∃ other ∈ surface.indexed, other.2 ≠ entry.2 ∧
        edge.swap ∈ other.1.edges) :
    surface.checkClosed = .ok () := by
  refine checkClosed_eq_ok_iff.mpr ⟨hlong, honce, ?_⟩
  rintro i v w ⟨face, hface, hedge⟩
  obtain ⟨⟨other, j⟩, hother, hne, hswap⟩ :=
    hmate (face, i) (mem_indexed_iff.mpr hface) _ hedge
  exact ⟨j, hne, other, mem_indexed_iff.mp hother, hswap⟩

/-- A surface is polyhedral when these conditions hold; `rings` has a ring
around every vertex. -/
theorem polyhedral_of_rings {count : ℕ} (rings : List (List ℕ))
    (hlong : ∀ face ∈ surface, 3 ≤ face.length)
    (honce : (surface.flatMap Face.edges).Nodup)
    (hmate : ∀ entry ∈ surface.indexed, ∀ edge ∈ entry.1.edges,
      ∃ other ∈ surface.indexed, other.2 ≠ entry.2 ∧
        edge.swap ∈ other.1.edges)
    (hsimple : ∀ face ∈ surface, face.Nodup)
    (hrange : surface.InRange count)
    (hused : ∀ v < count, ∃ face ∈ surface, v ∈ face)
    (hring :
      ∀ v < count, ∃ ring ∈ rings, 3 ≤ ring.length ∧ surface.RingAt v ring)
    (hshare : ∀ entry ∈ surface.indexed,
      ∀ other ∈ surface.indexed, entry.2 ≠ other.2 →
        ∀ side ∈ entry.1.sides, side ∈ other.1.sides →
          ∀ side' ∈ entry.1.sides, side' ∈ other.1.sides → side = side') :
    surface.Polyhedral count where
  closed := checkClosed_of_indexed hlong honce hmate
  simple := hsimple
  inRange := hrange
  used := hused
  ring v hv := by
    obtain ⟨ring, -, hlength, hat⟩ := hring v hv
    exact ⟨ring, hlength, hat⟩
  shareOne i j face other hface hother :=
    hshare (face, i) (mem_indexed_iff.mpr hface) (other, j)
      (mem_indexed_iff.mpr hother)

/-- A tetrahedron, with the ring around every vertex. -/
theorem polyhedral_tetrahedron :
    Surface.Polyhedral [[0, 1, 2], [0, 2, 3], [0, 3, 1], [1, 3, 2]] 4 := by
  apply polyhedral_of_rings [[0, 1, 2], [0, 2, 3], [0, 3, 1], [1, 3, 2]] <;>
    decide

end Surface
end Polyhedra
