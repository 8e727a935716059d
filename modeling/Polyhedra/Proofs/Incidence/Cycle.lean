import Mathlib
import Polyhedra.Proofs.Incidence.Basic
import Polyhedra.Proofs.Surface.Cycle

/-!
# The cycle of a face

In a cyclic incidence with finitely many flags at a face the corners of the
face can be listed as one cycle that follows the flags.  For the faces around
the vertices this lists the faces around one vertex.

Conversely a face that is given by the list of its corners is one cycle, and
so is a face whose corners stand for the corners of another one.
-/

namespace Polyhedra
namespace Incidence

variable {F K : Type} {R : Incidence F K}

/-- The corners of a face in the order of its flags, from any of them on. -/
theorem Cyclic.exists_cycle
    (hR : R.Cyclic)
    {f : F} {v w : K}
    (hfinite : {x | ∃ y, R f x y}.Finite)
    (h : R f v w) :
    ∃ keys : List K, keys.head? = some v ∧ keys.Nodup ∧
      (∀ x, x ∈ keys ↔ ∃ y, R f x y) ∧
      ∀ x y, (x, y) ∈ Face.steps keys → R f x y := by
  let corners := {x // ∃ y, R f x y}
  have hcorners : Finite corners := hfinite
  choose head hhead using fun x : corners => x.2
  let next : corners → corners := fun x => ⟨head x, hR.next (hhead x)⟩
  have hinjective : Function.Injective next := by
    intro x y heq
    have hsame : head x = head y := congrArg Subtype.val heq
    exact Subtype.ext (hR.tail_unique (hhead x) (hsame ▸ hhead y))
  have hconnected :
      ∀ x y : corners, Relation.EqvGen (fun x y => next x = y) x y := by
    intro x y
    refine eqvGen_transport (fun a (x : corners) => a = x.1) ?_ ?_
      (hR.turn (hhead x) (hhead y)) rfl rfl
    · rintro _ x y rfl heq
      exact Subtype.ext heq ▸ .refl _
    · intro a b hab
      refine ⟨⟨a, b, hab⟩, ⟨b, hR.next hab⟩, rfl, rfl,
        .rel _ _ (Subtype.ext ?_)⟩
      exact hR.head_unique (hhead ⟨a, b, hab⟩) hab
  obtain ⟨keys, hstart, hnodup, hall, hsteps⟩ :=
    Face.exists_cycle next hinjective hconnected ⟨v, w, h⟩
  refine ⟨keys.map Subtype.val, ?_, hnodup.map Subtype.val_injective, ?_, ?_⟩
  · rw [List.head?_map, hstart]
    rfl
  · intro x
    constructor
    · intro hx
      obtain ⟨x, -, rfl⟩ := List.mem_map.mp hx
      exact x.2
    · exact fun hx => List.mem_map.mpr ⟨⟨x, hx⟩, hall _, rfl⟩
  · intro x y hstep
    rw [Face.steps_map] at hstep
    obtain ⟨⟨a, b⟩, hab, heq⟩ := List.mem_map.mp hstep
    obtain ⟨rfl, rfl⟩ := Prod.mk.inj heq
    exact hsteps a b hab ▸ hhead a

/-! ## Single faces -/

/-- The steps of a list without repetition are one cycle. -/
theorem isCycle_of_steps {r : K → K → Prop} {keys : List K}
    (hnodup : keys.Nodup)
    (h : ∀ v w, r v w ↔ (v, w) ∈ Face.steps keys) : IsCycle r where
  head_unique hw hw' :=
    Face.step_head_unique hnodup ((h _ _).mp hw) ((h _ _).mp hw')
  tail_unique hv hv' :=
    Face.step_tail_unique hnodup ((h _ _).mp hv) ((h _ _).mp hv')
  next hvw := by
    obtain ⟨x, hx⟩ :=
      Face.exists_step_from (Face.mem_of_step ((h _ _).mp hvw)).2
    exact ⟨x, (h _ _).mpr hx⟩
  prev hvw := by
    obtain ⟨u, hu⟩ :=
      Face.exists_step_to (Face.mem_of_step ((h _ _).mp hvw)).1
    exact ⟨u, (h _ _).mpr hu⟩
  turn hvw hvw' :=
    Face.connected_of_steps keys (fun v w hstep => (h v w).mpr hstep)
      (Face.mem_of_step ((h _ _).mp hvw)).1
      (Face.mem_of_step ((h _ _).mp hvw')).1

/-- When every corner of a cycle stands for one new corner, and different
ones for different ones, the new corners are one cycle. -/
theorem IsCycle.transport {L : Type} {r : K → K → Prop} {s : L → L → Prop}
    (hr : IsCycle r)
    (image : K → L → Prop)
    (hs : ∀ x y, s x y ↔ ∃ v w, r v w ∧ image v x ∧ image w y)
    (himage : ∀ v w, r v w → ∃ x, image v x)
    (hunique : ∀ v x y, image v x → image v y → x = y)
    (hinjective : ∀ v w x, image v x → image w x → v = w) : IsCycle s where
  head_unique := by
    intro x y y' h h'
    obtain ⟨v, w, hvw, hx, hy⟩ := (hs _ _).mp h
    obtain ⟨v', w', hvw', hx', hy'⟩ := (hs _ _).mp h'
    obtain rfl := hinjective v v' x hx hx'
    obtain rfl := hr.head_unique hvw hvw'
    exact hunique w y y' hy hy'
  tail_unique := by
    intro x x' y h h'
    obtain ⟨v, w, hvw, hx, hy⟩ := (hs _ _).mp h
    obtain ⟨v', w', hvw', hx', hy'⟩ := (hs _ _).mp h'
    obtain rfl := hinjective w w' y hy hy'
    obtain rfl := hr.tail_unique hvw hvw'
    exact hunique v x x' hx hx'
  next := by
    intro x y h
    obtain ⟨v, w, hvw, hx, hy⟩ := (hs _ _).mp h
    obtain ⟨u, hwu⟩ := hr.next hvw
    obtain ⟨t, hut⟩ := hr.next hwu
    obtain ⟨z, hz⟩ := himage u t hut
    exact ⟨z, (hs _ _).mpr ⟨w, u, hwu, hy, hz⟩⟩
  prev := by
    intro x y h
    obtain ⟨v, w, hvw, hx, hy⟩ := (hs _ _).mp h
    obtain ⟨u, huv⟩ := hr.prev hvw
    obtain ⟨z, hz⟩ := himage u v huv
    exact ⟨z, (hs _ _).mpr ⟨u, v, huv, hz, hx⟩⟩
  turn := by
    intro x y x' y' h h'
    obtain ⟨v, w, hvw, hx, hy⟩ := (hs _ _).mp h
    obtain ⟨v', w', hvw', hx', hy'⟩ := (hs _ _).mp h'
    apply eqvGen_transport image _ _ (hr.turn hvw hvw') hx hx'
    · intro v x y hx hy
      exact hunique v x y hx hy ▸ .refl x
    · intro v w hvw
      obtain ⟨u, hwu⟩ := hr.next hvw
      obtain ⟨x, hx⟩ := himage v w hvw
      obtain ⟨y, hy⟩ := himage w u hwu
      exact ⟨x, y, hx, hy, .rel _ _ ((hs _ _).mpr ⟨v, w, hvw, hx, hy⟩)⟩

end Incidence
end Polyhedra
