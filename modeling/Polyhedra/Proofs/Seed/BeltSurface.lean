import Mathlib
import Polyhedra.Proofs.Seed.Belt
import Polyhedra.Proofs.Surface.FirstFault
import Polyhedra.Proofs.Surface.Polyhedral

/-!
# Surfaces of belts

A surface is that of a belt when it lists the rings and then the faces of the
belt in any order, each from any corner on, with the vertices of the lower
ring numbered first.  Such a surface is a polyhedral one, and its Euler
characteristic is two.
-/

namespace Polyhedra

namespace Rim

variable {p m : ℕ} (rim : Rim p m)

/-- A face of the belt has two corners in a ring where its end moves, and one
where it stays. -/
theorem sum_ends (x : ℕ) :
    ((List.range x).map fun k => if rim.Moves k then 2 else 1).sum +
      rim.count 0 = x + rim.count x := by
  induction x with
  | zero => simp
  | succ x ih =>
      rw [List.range_succ, List.map_append, List.sum_append,
        List.map_singleton, List.sum_singleton]
      by_cases hx : rim.Moves x
      · rw [if_pos hx, hx]
        omega
      · rw [if_neg hx, rim.count_succ_of_not_moves hx]
        omega

/-- Around the belt a ring is gone round once. -/
theorem count_round :
    rim.count p = rim.count 0 + if m = 1 then 0 else m := by
  rcases rim.round with ⟨hm, hround⟩ | ⟨rfl, hzero⟩
  · rw [if_neg (by omega), ← hround, Nat.zero_add]
  · rw [hzero, hzero, if_pos rfl]

end Rim

namespace Belt

variable {p m q : ℕ} {belt : Belt p m q}

/-- The vertices by their numbers, the lower ring first. -/
def number (m : ℕ) : Corner → ℕ
  | .low a => a
  | .high c => m + c

/-- The rings that are faces. -/
def rings (p q : ℕ) : List (Part p) :=
  if q = 1 then [.bottom] else [.bottom, .top]

/-- The faces of the belt and its rings, the rings first. -/
def parts (belt : Belt p m q) (order : List ℕ) : List (Part p) :=
  rings p q ++ order.map belt.side

/-- The surface has the faces of the belt in the given order, each of them
from any corner on. -/
structure ListedBy (belt : Belt p m q) (order : List ℕ) (surface : Surface) :
    Prop where
  perm : order.Perm (List.range p)
  faces : List.Forall₂ (fun part face => face ~r
    (belt.corners part).map (number m)) (belt.parts order) surface

theorem injOn_number : Set.InjOn (number m) belt.incidence.tails := by
  rintro (a | c) hv (b | d) hw heq
  · exact congrArg Corner.low heq
  · have ha := low_mem_tails_iff.mp hv
    change a = m + d at heq
    omega
  · have hb := low_mem_tails_iff.mp hw
    change m + c = b at heq
    omega
  · exact congrArg Corner.high (Nat.add_left_cancel heq)

theorem image_number :
    number m '' belt.incidence.tails = {v | v < m + q} := by
  ext v
  constructor
  · rintro ⟨a | c, hv, rfl⟩
    · have ha := low_mem_tails_iff.mp hv
      change a < m + q
      omega
    · have hc := high_mem_tails_iff.mp hv
      change m + c < m + q
      omega
  · intro hv
    rcases Nat.lt_or_ge v m with hlow | hhigh
    · exact ⟨.low v, low_mem_tails_iff.mpr hlow, rfl⟩
    · obtain ⟨c, rfl⟩ := Nat.exists_eq_add_of_le hhigh
      exact ⟨.high c, high_mem_tails_iff.mpr (Nat.lt_of_add_lt_add_left hv),
        rfl⟩

theorem mem_tails_of_mem_corners {part : Part p} {v : Corner}
    (h : v ∈ belt.corners part) :
    v ∈ belt.incidence.tails := by
  obtain ⟨w, hw⟩ := Face.exists_step_from h
  exact ⟨part, w, hw⟩

variable {order : List ℕ}

theorem mem_parts_iff (horder : order.Perm (List.range p)) {part : Part p} :
    part ∈ belt.parts order ↔ belt.corners part ≠ [] := by
  have hlow := belt.low.pos
  have hhigh := belt.high.pos
  cases part with
  | bottom =>
      refine iff_of_true (List.mem_append_left _ ?_)
        (by simp [corners, hlow.ne'])
      unfold rings
      split_ifs <;> simp
  | top =>
      by_cases hq : q = 1
      · simp [parts, rings, corners, hq, side]
      · simp [parts, rings, corners, hq, hhigh.ne']
  | side x =>
      have hmem : x.val ∈ order :=
        horder.mem_iff.mpr (List.mem_range.mpr x.isLt)
      refine iff_of_true (List.mem_append_right _ ?_) ?_
      · exact List.mem_map.mpr ⟨x, hmem, belt.side_val x⟩
      · simp only [corners, sideCorners]
        split_ifs <;> simp

theorem nodup_parts (horder : order.Perm (List.range p)) :
    (belt.parts order).Nodup := by
  have hlt : ∀ {x}, x ∈ order → x < p :=
    fun hx => List.mem_range.mp (horder.mem_iff.mp hx)
  refine List.Nodup.append ?_ ?_ ?_
  · unfold rings
    split_ifs <;> simp
  · refine List.Nodup.map_on ?_ (horder.nodup_iff.mpr List.nodup_range)
    intro x hx y hy heq
    exact Nat.ModEq.eq_of_lt_of_lt (belt.side_eq_iff.mp heq) (hlt hx)
      (hlt hy)
  · intro part hring hside
    obtain ⟨x, -, rfl⟩ := List.mem_map.mp hside
    unfold rings at hring
    split_ifs at hring <;> simp [side] at hring

namespace ListedBy

variable {surface : Surface} (h : belt.ListedBy order surface)
include h

theorem exists_part {i : ℕ} {face : Face} (hface : surface[i]? = some face) :
    ∃ part, (belt.parts order)[i]? = some part ∧
      face ~r (belt.corners part).map (number m) := by
  obtain ⟨hlength, hget⟩ := List.forall₂_iff_get.mp h.faces
  obtain ⟨hi, rfl⟩ := List.getElem?_eq_some_iff.mp hface
  exact ⟨_, List.getElem?_eq_getElem (hlength ▸ hi),
    hget i (hlength ▸ hi) hi⟩

theorem exists_face {i : ℕ} {part : Part p}
    (hpart : (belt.parts order)[i]? = some part) :
    ∃ face, surface[i]? = some face ∧
      face ~r (belt.corners part).map (number m) := by
  obtain ⟨hlength, hget⟩ := List.forall₂_iff_get.mp h.faces
  obtain ⟨hi, rfl⟩ := List.getElem?_eq_some_iff.mp hpart
  exact ⟨_, List.getElem?_eq_getElem (hlength ▸ hi),
    hget i hi (hlength ▸ hi)⟩

theorem incidence_eq :
    surface.incidence =
      belt.incidence.rename (fun part => (belt.parts order).idxOf part)
        (number m) := by
  ext i v w
  constructor
  · rintro ⟨face, hface, hedge⟩
    obtain ⟨part, hpart, hrotated⟩ := h.exists_part hface
    rw [Face.edges_eq_steps, Face.mem_steps_of_isRotated hrotated,
      Face.steps_map] at hedge
    obtain ⟨⟨a, b⟩, hstep, heq⟩ := List.mem_map.mp hedge
    obtain ⟨rfl, rfl⟩ := Prod.mk.inj heq
    obtain ⟨hi, rfl⟩ := List.getElem?_eq_some_iff.mp hpart
    exact ⟨_, a, b, hstep, (nodup_parts h.perm).idxOf_getElem i hi, rfl, rfl⟩
  · rintro ⟨part, a, b, hstep, rfl, rfl, rfl⟩
    have hmem : part ∈ belt.parts order :=
      (mem_parts_iff h.perm).mpr
        (List.ne_nil_of_mem (Face.mem_of_step hstep).1)
    obtain ⟨face, hface, hrotated⟩ :=
      h.exists_face (List.getElem?_idxOf hmem)
    refine ⟨face, hface, ?_⟩
    rw [Face.edges_eq_steps, Face.mem_steps_of_isRotated hrotated,
      Face.steps_map]
    exact List.mem_map.mpr ⟨(a, b), hstep, rfl⟩

theorem simple {face : Face} (hface : face ∈ surface) :
    face.Nodup ∧ face ≠ [] := by
  obtain ⟨i, hi⟩ := List.mem_iff_getElem?.mp hface
  obtain ⟨part, hpart, hrotated⟩ := h.exists_part hi
  constructor
  · refine hrotated.nodup_iff.mpr (List.Nodup.map_on ?_ (nodup_corners part))
    intro v hv w hw
    exact injOn_number (mem_tails_of_mem_corners hv)
      (mem_tails_of_mem_corners hw)
  · rintro rfl
    rw [List.isRotated_nil_iff'] at hrotated
    exact (mem_parts_iff h.perm).mp (List.mem_of_getElem? hpart)
      (List.map_eq_nil_iff.mp hrotated.symm)

theorem polyhedral : surface.Polyhedral (m + q) := by
  have hface : Set.InjOn (fun part => (belt.parts order).idxOf part)
      belt.incidence.faces := by
    rintro f ⟨v, w, hf⟩ g - heq
    have hmem : f ∈ belt.parts order :=
      (mem_parts_iff h.perm).mpr (List.ne_nil_of_mem (Face.mem_of_step hf).1)
    exact (List.idxOf_inj hmem).mp heq
  refine Surface.polyhedral_iff.mpr ⟨?_, fun _ => h.simple, ?_⟩
  · rw [h.incidence_eq]
    exact incidence_polyhedral.rename hface injOn_number
  · rw [h.incidence_eq, Incidence.tails_rename, image_number]

theorem length_eq : surface.length = p + if q = 1 then 1 else 2 := by
  rw [← h.faces.length_eq, parts, List.length_append, List.length_map,
    h.perm.length_eq, List.length_range, rings]
  split_ifs <;> simp [Nat.add_comm]

theorem sideCounts_eq : surface.sideCounts =
    (belt.parts order).map fun part => (belt.corners part).length := by
  have hlength : List.Forall₂ (fun part face => (belt.corners part).length =
      face.length) (belt.parts order) surface :=
    h.faces.imp fun part face hrotated => by
      rw [hrotated.perm.length_eq, List.length_map]
  have heq : List.Forall₂ (· = ·) ((belt.parts order).map fun part =>
      (belt.corners part).length) (surface.map List.length) := by
    rwa [List.forall₂_map_left_iff, List.forall₂_map_right_iff]
  rw [List.forall₂_eq_eq_eq] at heq
  exact heq.symm

/-- Every vertex of a ring and every rung stands for one edge. -/
theorem sum_sideCounts :
    surface.sideCounts.sum = 2 * (p + m + if q = 1 then 0 else q) := by
  have hrings :
      ((rings p q).map fun part => (belt.corners part).length).sum =
        m + if q = 1 then 0 else q := by
    unfold rings
    split_ifs with hq <;> simp [corners, hq]
  have hside : ∀ x, (belt.corners (belt.side x)).length =
        (if belt.low.Moves x then 2 else 1) + if belt.high.Moves x then 2
      else 1 := by
    intro x
    rw [corners_side, sideCorners, List.length_append]
    split_ifs <;> rfl
  have hsides : ((order.map belt.side).map fun part =>
        (belt.corners part).length).sum =
      ((List.range p).map fun x => if belt.low.Moves x then 2 else 1).sum +
      ((List.range p).map fun x => if belt.high.Moves x then 2
        else 1).sum := by
    rw [List.map_map, (h.perm.map _).sum_eq, ← List.sum_map_add]
    exact congrArg List.sum (List.map_congr_left fun x _ => hside x)
  have hlow := belt.low.sum_ends p
  have hhigh := belt.high.sum_ends p
  rw [belt.low.count_round, if_neg (by have := belt.ring; omega)] at hlow
  rw [belt.high.count_round] at hhigh
  rw [h.sideCounts_eq, parts, List.map_append, List.sum_append, hrings,
    hsides]
  omega

theorem eulerCharacteristic {solid : Solid}
    (hfaces : solid.faces = surface)
    (hvertices : solid.vertices.length = m + q)
    (name : String) :
    (solid.named name).eulerCharacteristic = 2 := by
  have hedges :
      2 * surface.edgeCount = 2 * (p + m + if q = 1 then 0 else q) := by
    rw [Surface.two_mul_edgeCount_eq_sum h.polyhedral.closed,
      h.sum_sideCounts]
  have hvertexCount : (solid.named name).vertexCount = m + q := by
    rw [← hvertices]
    exact List.size_toArray
  have hfaceCount :
      (solid.named name).faceCount = p + if q = 1 then 1 else 2 := by
    rw [← h.length_eq, ← hfaces]
    rfl
  have hedgeCount : (solid.named name).edgeCount = surface.edgeCount :=
    congrArg _ hfaces
  rw [Mesh.eulerCharacteristic, hvertexCount, hfaceCount, hedgeCount]
  split_ifs at hedges ⊢ <;> omega

end ListedBy

end Belt

end Polyhedra
