import Mathlib
import Polyhedra.Surface.Face

/-!
# Steps of a cyclic list

A cyclic list has a step from every entry to the next one and from the last
entry to the first.  The steps of a face are its directed edges.  Turning the
list by some places only turns the list of its steps, so nothing that is said
about steps depends on the entry that the list starts at.

The last part lists the orbit of an injective map on a finite type: when any
two points are joined by applications of the map, the type is one cycle and
can be listed from every point.
-/

namespace Polyhedra
namespace Face

variable {α β : Type}

/-- Every entry with the next one, the first coming after the last. -/
def steps (keys : List α) : List (α × α) :=
  keys.zip (successors keys)

theorem edges_eq_steps (face : Face) : face.edges = steps face := rfl

theorem successors_eq_rotate (keys : List α) :
    successors keys = keys.rotate 1 := by
  cases keys with
  | nil => rfl
  | cons key rest => simp [successors]

theorem predecessors_eq_rotate (keys : List α) :
    predecessors keys = keys.rotate (keys.length - 1) := by
  rw [List.rotate_eq_drop_append_take (Nat.sub_le _ _)]
  rfl

@[simp] theorem length_steps (keys : List α) :
    (steps keys).length = keys.length := by
  simp [steps]

/-- The step at the place `k` leads to the entry at the next place. -/
theorem mem_steps_iff {keys : List α} {a b : α} :
    (a, b) ∈ steps keys ↔
      ∃ k : ℕ, keys[k]? = some a ∧
        keys[(k + 1) % keys.length]? = some b := by
  rw [steps, List.mem_iff_getElem?]
  simp only [List.getElem?_zip_eq_some, successors_eq_rotate]
  refine exists_congr fun k => and_congr_right fun hk => ?_
  obtain ⟨hlt, -⟩ := List.getElem?_eq_some_iff.mp hk
  rw [List.getElem?_rotate hlt]

theorem steps_rotate (keys : List α) (n : ℕ) :
    steps (keys.rotate n) = (steps keys).rotate n := by
  have hcomm : (keys.rotate n).rotate 1 = (keys.rotate 1).rotate n := by
    rw [List.rotate_rotate, List.rotate_rotate, Nat.add_comm]
  rw [steps, steps, successors_eq_rotate, successors_eq_rotate, hcomm]
  exact (List.zipWith_rotate_distrib _ _ _ _ (by simp)).symm

theorem mem_steps_of_isRotated {keys other : List α}
    (h : keys ~r other)
    {step : α × α} :
    step ∈ steps keys ↔ step ∈ steps other := by
  obtain ⟨n, rfl⟩ := h
  rw [steps_rotate, List.mem_rotate]

theorem steps_map (f : α → β) (keys : List α) :
    steps (keys.map f) = (steps keys).map (Prod.map f f) := by
  unfold steps
  rw [successors_eq_rotate, successors_eq_rotate, ← List.map_rotate,
    List.zip_map]

theorem mem_steps_three {a b c v w : α} :
    (v, w) ∈ steps [a, b, c] ↔
      v = a ∧ w = b ∨ v = b ∧ w = c ∨ v = c ∧ w = a := by
  simp [steps, successors]

theorem mem_steps_four {a b c d v w : α} :
    (v, w) ∈ steps [a, b, c, d] ↔
      v = a ∧ w = b ∨ v = b ∧ w = c ∨ v = c ∧ w = d ∨ v = d ∧ w = a := by
  simp [steps, successors]

theorem mem_steps_five {a b c d e v w : α} :
    (v, w) ∈ steps [a, b, c, d, e] ↔
      v = a ∧ w = b ∨ v = b ∧ w = c ∨ v = c ∧ w = d ∨ v = d ∧ w = e ∨
      v = e ∧ w = a := by
  simp [steps, successors]

theorem mem_steps_six {a b c d e f v w : α} :
    (v, w) ∈ steps [a, b, c, d, e, f] ↔
      v = a ∧ w = b ∨ v = b ∧ w = c ∨ v = c ∧ w = d ∨ v = d ∧ w = e ∨
      v = e ∧ w = f ∨ v = f ∧ w = a := by
  simp [steps, successors]

theorem mem_of_step {keys : List α} {a b : α} (h : (a, b) ∈ steps keys) :
    a ∈ keys ∧ b ∈ keys :=
  ⟨(List.of_mem_zip h).1, mem_successors.mp (List.of_mem_zip h).2⟩

theorem exists_step_from {keys : List α} {a : α} (ha : a ∈ keys) :
    ∃ b, (a, b) ∈ steps keys := by
  obtain ⟨k, hk, rfl⟩ := List.mem_iff_getElem.mp ha
  have hnext : (k + 1) % keys.length < keys.length := Nat.mod_lt _ (by omega)
  exact ⟨keys[(k + 1) % keys.length],
    mem_steps_iff.mpr ⟨k, by simp, by simp [hnext]⟩⟩

theorem exists_step_to {keys : List α} {b : α} (hb : b ∈ keys) :
    ∃ a, (a, b) ∈ steps keys := by
  obtain ⟨k, hk, hkb⟩ := List.mem_iff_getElem.mp (mem_successors.mpr hb)
  have hlt : k < keys.length := by simpa using hk
  refine ⟨keys[k], List.mem_iff_getElem?.mpr ⟨k, ?_⟩⟩
  exact List.getElem?_zip_eq_some.mpr
    ⟨by simp, List.getElem?_eq_some_iff.mpr ⟨hk, hkb⟩⟩

theorem step_head_unique {keys : List α}
    (hnodup : keys.Nodup)
    {a b c : α}
    (hb : (a, b) ∈ steps keys)
    (hc : (a, c) ∈ steps keys) : b = c := by
  obtain ⟨k, hk, hkb⟩ := mem_steps_iff.mp hb
  obtain ⟨m, hm, hmc⟩ := mem_steps_iff.mp hc
  obtain ⟨hlt, -⟩ := List.getElem?_eq_some_iff.mp hk
  have hindex : k = m := (List.getElem?_inj hlt hnodup).mp (hk.trans hm.symm)
  subst hindex
  exact Option.some.inj (hkb.symm.trans hmc)

theorem step_tail_unique {keys : List α}
    (hnodup : keys.Nodup)
    {a b c : α}
    (ha : (a, c) ∈ steps keys)
    (hb : (b, c) ∈ steps keys) : a = b := by
  obtain ⟨k, hk, hkc⟩ := mem_steps_iff.mp ha
  obtain ⟨m, hm, hmc⟩ := mem_steps_iff.mp hb
  obtain ⟨hklt, -⟩ := List.getElem?_eq_some_iff.mp hk
  obtain ⟨hmlt, -⟩ := List.getElem?_eq_some_iff.mp hm
  obtain ⟨hnext, -⟩ := List.getElem?_eq_some_iff.mp hkc
  have hindex : (k + 1) % keys.length = (m + 1) % keys.length :=
    (List.getElem?_inj hnext hnodup).mp (hkc.trans hmc.symm)
  have hmod : k % keys.length = m % keys.length :=
    Nat.ModEq.add_right_cancel' 1 hindex
  rw [Nat.mod_eq_of_lt hklt, Nat.mod_eq_of_lt hmlt] at hmod
  subst hmod
  exact Option.some.inj (hk.symm.trans hm)

section Long

variable {keys : List α} {a b c : α}
  (hnodup : keys.Nodup)
  (hlong : 3 ≤ keys.length)
include hnodup hlong

theorem step_ne (hab : (a, b) ∈ steps keys) : a ≠ b := by
  rintro rfl
  obtain ⟨k, hk, hnext⟩ := mem_steps_iff.mp hab
  obtain ⟨hlt, -⟩ := List.getElem?_eq_some_iff.mp hk
  have hindex : k = (k + 1) % keys.length :=
    (List.getElem?_inj hlt hnodup).mp (hk.trans hnext.symm)
  rcases Nat.lt_or_ge (k + 1) keys.length with hinside | hlast
  · rw [Nat.mod_eq_of_lt hinside] at hindex
    omega
  · obtain rfl : k = keys.length - 1 := by omega
    rw [Nat.sub_add_cancel (by omega), Nat.mod_self] at hindex
    omega

/-- A cycle of at least three does not go back the way it came. -/
theorem step_step_ne
    (hab : (a, b) ∈ steps keys)
    (hbc : (b, c) ∈ steps keys) : a ≠ c := by
  rintro rfl
  obtain ⟨k, hk, hnext⟩ := mem_steps_iff.mp hab
  obtain ⟨m, hm, hback⟩ := mem_steps_iff.mp hbc
  obtain ⟨hlt, -⟩ := List.getElem?_eq_some_iff.mp hk
  obtain ⟨hlt', -⟩ := List.getElem?_eq_some_iff.mp hm
  have hindex : m = (k + 1) % keys.length :=
    (List.getElem?_inj hlt' hnodup).mp (hm.trans hnext.symm)
  have hindex' : k = (m + 1) % keys.length :=
    (List.getElem?_inj hlt hnodup).mp (hk.trans hback.symm)
  rcases Nat.lt_or_ge (k + 1) keys.length with hinside | hlast
  · obtain rfl : m = k + 1 := by rwa [Nat.mod_eq_of_lt hinside] at hindex
    rcases Nat.lt_or_ge (k + 1 + 1) keys.length with hinside' | hlast'
    · rw [Nat.mod_eq_of_lt hinside'] at hindex'
      omega
    · have hwhole : k + 1 + 1 = keys.length := by omega
      rw [hwhole, Nat.mod_self] at hindex'
      omega
  · have hwhole : k + 1 = keys.length := by omega
    rw [hwhole, Nat.mod_self] at hindex
    rw [hindex, Nat.mod_eq_of_lt (by omega)] at hindex'
    omega

end Long

theorem nodup_steps {keys : List α} (hnodup : keys.Nodup) :
    (steps keys).Nodup := by
  refine List.Nodup.of_map Prod.fst ?_
  rwa [steps, List.map_fst_zip (by simp)]

/-- All entries of a cyclic list are joined by its steps. -/
theorem connected_of_steps (keys : List α) {r : α → α → Prop}
    (hstep : ∀ a b, (a, b) ∈ steps keys → r a b)
    {a b : α}
    (ha : a ∈ keys)
    (hb : b ∈ keys) :
    Relation.EqvGen r a b := by
  have hfirst : ∀ (k : ℕ) (first c : α), keys[0]? = some first →
      keys[k]? = some c → Relation.EqvGen r first c := by
    intro k first
    induction k with
    | zero =>
        intro c h0 hc
        rw [h0, Option.some.injEq] at hc
        exact hc ▸ .refl _
    | succ k ih =>
        intro c h0 hc
        obtain ⟨hlt, -⟩ := List.getElem?_eq_some_iff.mp hc
        have hk : keys[k]? = some keys[k] := by simp
        refine (ih _ h0 hk).trans _ _ _ (.rel _ _ (hstep _ _ ?_))
        exact mem_steps_iff.mpr ⟨k, hk, by rwa [Nat.mod_eq_of_lt hlt]⟩
  obtain ⟨k, hk⟩ := List.mem_iff_getElem?.mp ha
  obtain ⟨m, hm⟩ := List.mem_iff_getElem?.mp hb
  have hpos : 0 < keys.length := List.length_pos_of_mem ha
  have h0 : keys[0]? = some keys[0] := by simp
  exact ((hfirst k _ _ h0 hk).symm).trans _ _ _ (hfirst m _ _ h0 hm)

/-- Two cyclic lists without repetition that have the same steps and start at
the same entry are equal. -/
theorem eq_of_steps {keys other : List α}
    (hnodup : other.Nodup)
    (hlength : keys.length = other.length)
    (hhead : keys.head? = other.head?)
    (hsteps : ∀ a b, (a, b) ∈ steps keys → (a, b) ∈ steps other) :
    keys = other := by
  refine List.ext_getElem? fun k => ?_
  induction k with
  | zero => simpa [List.head?_eq_getElem?] using hhead
  | succ k ih =>
      by_cases hlt : k + 1 < keys.length
      · have hk : keys[k]? = some keys[k] := by simp
        have hnext : keys[k + 1]? = some keys[k + 1] := by simp
        have hkeys : (keys[k], keys[k + 1]) ∈ steps other :=
          hsteps _ _
            (mem_steps_iff.mpr ⟨k, hk, by rwa [Nat.mod_eq_of_lt hlt]⟩)
        have hlt' : k + 1 < other.length := hlength ▸ hlt
        have hother : (keys[k], other[k + 1]) ∈ steps other := by
          refine mem_steps_iff.mpr ⟨k, ih ▸ hk, ?_⟩
          rw [Nat.mod_eq_of_lt hlt']
          simp
        rw [hnext, step_head_unique hnodup hkeys hother]
        simp
      · rw [List.getElem?_eq_none (by omega),
          List.getElem?_eq_none (by omega)]

/-- A list can be turned so that it starts at any of its entries. -/
theorem exists_rotate_head {keys : List α} {a : α} (ha : a ∈ keys) :
    ∃ n, (keys.rotate n).head? = some a := by
  obtain ⟨n, hn, rfl⟩ := List.mem_iff_getElem.mp ha
  refine ⟨n, ?_⟩
  rw [List.head?_rotate hn]
  simp

/-- Two cyclic lists without repetition that have the same steps differ in
where they start. -/
theorem isRotated_of_steps {keys other : List α}
    (hnodup : keys.Nodup)
    (hnodup' : other.Nodup)
    (hne : keys ≠ [])
    (hsteps : ∀ a b, (a, b) ∈ steps keys ↔ (a, b) ∈ steps other) :
    keys ~r other := by
  have hmem : ∀ a, a ∈ keys ↔ a ∈ other := by
    intro a
    constructor
    · intro ha
      obtain ⟨b, hab⟩ := exists_step_from ha
      exact (mem_of_step ((hsteps a b).mp hab)).1
    · intro ha
      obtain ⟨b, hab⟩ := exists_step_from ha
      exact (mem_of_step ((hsteps a b).mpr hab)).1
  have hlength : keys.length = other.length :=
    ((List.perm_ext_iff_of_nodup hnodup hnodup').mpr hmem).length_eq
  obtain ⟨n, hhead⟩ := exists_rotate_head ((hmem _).mp (List.head_mem hne))
  have heq : keys = other.rotate n := by
    apply eq_of_steps (List.nodup_rotate.mpr hnodup')
    · rw [List.length_rotate, hlength]
    · rw [hhead, List.head?_eq_some_head hne]
    · intro a b hab
      rw [steps_rotate, List.mem_rotate]
      exact (hsteps a b).mp hab
  exact heq ▸ (List.IsRotated.forall other n)

/-! ## Arrivals and triples of a face -/

theorem arrivals_eq_rotate (face : Face) :
    face.arrivals = face.edges.rotate (face.length - 1) := by
  have hback : face = (face.rotate (face.length - 1)).rotate 1 := by
    rw [List.rotate_rotate]
    cases face <;> simp
  rw [edges_eq_steps, ← steps_rotate, steps, arrivals,
    predecessors_eq_rotate, successors_eq_rotate]
  exact congrArg _ hback

theorem mem_arrivals_iff {face : Face} {edge : Edge} :
    edge ∈ face.arrivals ↔ edge ∈ face.edges := by
  rw [arrivals_eq_rotate, List.mem_rotate]

theorem successors_reverse (keys : List α) :
    successors keys.reverse = (predecessors keys).reverse := by
  rw [successors_eq_rotate, predecessors_eq_rotate, List.rotate_reverse]
  cases keys with
  | nil => rfl
  | cons key rest => cases rest <;> simp

/-- Backwards a cyclic list has the same steps, each in the other
direction. -/
theorem steps_reverse_perm (keys : List α) :
    (steps keys.reverse).Perm ((steps keys).map Prod.swap) := by
  have hback : keys = (keys.rotate (keys.length - 1)).rotate 1 := by
    rw [List.rotate_rotate]
    cases keys <;> simp
  have harrivals : (predecessors keys).zip keys =
      (steps keys).rotate (keys.length - 1) := by
    rw [← steps_rotate, steps, predecessors_eq_rotate, successors_eq_rotate]
    exact congrArg _ hback
  have hsteps :
      steps keys.reverse = (keys.zip (predecessors keys)).reverse := by
    rw [steps, successors_reverse]
    exact (List.reverse_zipWith (by simp)).symm
  rw [hsteps, ← List.zip_swap (predecessors keys) keys, harrivals]
  exact (List.reverse_perm _).trans ((List.rotate_perm _ _).map _)

theorem mem_steps_reverse {keys : List α} {a b : α} :
    (a, b) ∈ steps keys.reverse ↔ (b, a) ∈ steps keys := by
  rw [(steps_reverse_perm keys).mem_iff, List.mem_map]
  constructor
  · rintro ⟨⟨c, d⟩, hstep, heq⟩
    obtain ⟨rfl, rfl⟩ := Prod.mk.inj heq
    exact hstep
  · exact fun h => ⟨(b, a), h, rfl⟩

theorem mem_edges_reverse {face : Face} {v w : ℕ} :
    (v, w) ∈ edges face.reverse ↔ (w, v) ∈ face.edges := by
  rw [edges_eq_steps, edges_eq_steps]
  exact mem_steps_reverse

/-- Of a face without repetition, the triples are the pairs of edges that
meet. -/
theorem mem_triples_iff {face : Face} (hsimple : face.Nodup) {a b c : ℕ} :
    (a, b, c) ∈ face.triples ↔
      (a, b) ∈ face.edges ∧ (b, c) ∈ face.edges := by
  have hpred : ∀ {k : ℕ} {v : ℕ}, face[k]? = some v →
      ∃ m : ℕ, (predecessors face)[k]? = face[m]? ∧
        (predecessors (predecessors face))[k]? =
          (predecessors face)[m]? := by
    intro k v hk
    obtain ⟨hlt, -⟩ := List.getElem?_eq_some_iff.mp hk
    have hmod : (k + (face.length - 1)) % face.length < face.length :=
      Nat.mod_lt _ (by omega)
    refine ⟨(k + (face.length - 1)) % face.length, ?_, ?_⟩
    · rw [predecessors_eq_rotate, List.getElem?_rotate hlt]
    · simp [predecessors_eq_rotate, hlt, hmod, Nat.add_assoc]
  have hedge : ∀ {a b : ℕ}, (a, b) ∈ face.edges ↔
      ∃ k : ℕ, (predecessors face)[k]? = some a ∧ face[k]? = some b := by
    intro a b
    rw [← mem_arrivals_iff, arrivals, List.mem_iff_getElem?]
    simp only [List.getElem?_zip_eq_some]
  rw [triples, arrivals, List.mem_iff_getElem?]
  simp only [List.getElem?_zip_eq_some]
  constructor
  · rintro ⟨k, ha, hb, hc⟩
    obtain ⟨m, hmid, hlast⟩ := hpred hc
    exact ⟨hedge.mpr ⟨m, hlast ▸ ha, hmid ▸ hb⟩, hedge.mpr ⟨k, hb, hc⟩⟩
  · rintro ⟨hab, hbc⟩
    obtain ⟨j, ha, hj⟩ := hedge.mp hab
    obtain ⟨k, hb, hc⟩ := hedge.mp hbc
    obtain ⟨m, hmid, hlast⟩ := hpred hc
    obtain ⟨hlt, -⟩ := List.getElem?_eq_some_iff.mp hj
    have hindex : j = m :=
      (List.getElem?_inj hlt hsimple).mp (hj.trans (hb.symm.trans hmid))
    subst hindex
    exact ⟨k, hlast.trans ha, hb, hc⟩

/-! ## Orbits of an injective map -/

/-- When the applications of an injective map join all points of a finite
type, the type is one cycle of the map, listed from any of its points. -/
theorem exists_cycle [Finite α] (next : α → α)
    (hinjective : Function.Injective next)
    (hconnected : ∀ a b, Relation.EqvGen (fun a b => next a = b) a b)
    (start : α) :
    ∃ keys : List α, keys.head? = some start ∧ keys.Nodup ∧ (∀ a, a ∈ keys) ∧
      ∀ a b, (a, b) ∈ steps keys → next a = b := by
  have hperiodic := hinjective.mem_periodicPts start
  set n := Function.minimalPeriod next start with hn
  have hpos : 0 < n :=
    Function.minimalPeriod_pos_of_mem_periodicPts hperiodic
  have hreturn : next^[n] start = start := Function.iterate_minimalPeriod
  -- the orbit of the start is closed under the map and under taking
  -- preimages
  have horbit : ∀ a b, Relation.EqvGen (fun a b => next a = b) a b →
      ((∃ k, next^[k] start = a) ↔ ∃ k, next^[k] start = b) := by
    intro a b h
    induction h with
    | rel a b hab =>
        subst hab
        constructor
        · rintro ⟨k, rfl⟩
          exact ⟨k + 1, Function.iterate_succ_apply' next k start⟩
        · rintro ⟨k, hk⟩
          refine ⟨k + (n - 1), hinjective ?_⟩
          rw [← hk, ← Function.iterate_succ_apply' next (k + (n - 1)),
            show (k + (n - 1)).succ = k + n by omega,
            Function.iterate_add_apply, hreturn]
    | refl a => exact Iff.rfl
    | symm a b _ ih => exact ih.symm
    | trans a b c _ _ hab hbc => exact hab.trans hbc
  refine ⟨(List.range n).map fun k => next^[k] start, ?_, ?_, ?_, ?_⟩
  · rw [List.head?_map, List.head?_range]
    simp [hpos.ne']
  · refine List.Nodup.map_on ?_ List.nodup_range
    intro j hj k hk heq
    exact Function.iterate_injOn_Iio_minimalPeriod (List.mem_range.mp hj)
      (List.mem_range.mp hk) heq
  · intro a
    obtain ⟨k, rfl⟩ := (horbit start a (hconnected start a)).mp ⟨0, rfl⟩
    refine List.mem_map.mpr
      ⟨k % n, List.mem_range.mpr (Nat.mod_lt _ hpos), ?_⟩
    exact Function.iterate_mod_minimalPeriod_eq
  · intro a b hab
    obtain ⟨k, hk, hb⟩ := mem_steps_iff.mp hab
    obtain ⟨hlt, rfl⟩ := List.getElem?_eq_some_iff.mp hk
    obtain ⟨hlt', rfl⟩ := List.getElem?_eq_some_iff.mp hb
    simp only [List.getElem_map, List.getElem_range, List.length_map,
      List.length_range]
    rw [hn, Function.iterate_mod_minimalPeriod_eq,
      Function.iterate_succ_apply']

end Face
end Polyhedra
