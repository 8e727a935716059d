import Mathlib
import Polyhedra.Proofs.Seed.BeltSurface
import Polyhedra.Seed.Ring

/-!
# Solids between rings

Prisms, antiprisms, pyramids, cupolas and anticupolas are belts between two
rings, or a ring and an apex, so for every number of sides from three on
their faces are a polyhedral surface that uses exactly their vertices.
-/

namespace Polyhedra

/-! ## Ends of rungs -/

namespace Rim

variable {n : ℕ}

/-- The end moves on from every rung to the next. -/
def steady (hn : 3 ≤ n) : Rim n n where
  count := id
  step _ := .inr rfl
  round := .inl ⟨hn, fun _ => rfl⟩

/-- The end never moves. -/
def apex (p : ℕ) : Rim p 1 where
  count _ := 0
  step _ := .inl rfl
  round := .inr ⟨rfl, fun _ => rfl⟩

/-- The end moves on after the odd rungs, or, with the shift 1, after the
even ones. -/
def alternate (hn : 3 ≤ n) (shift : ℕ) : Rim (2 * n) n where
  count x := (x + shift) / 2
  step x := by omega
  round := .inl ⟨hn, fun x => by omega⟩

/-- The end moves on after the rungs 1, 4, 7, …. -/
def third (hn : 3 ≤ n) : Rim (3 * n) n where
  count x := (x + 1) / 3
  step x := by omega
  round := .inl ⟨hn, fun x => by omega⟩

/-- The end moves on except after the rungs 1, 4, 7, …. -/
def twoThirds (hn : 3 ≤ n) : Rim (3 * n) (2 * n) where
  count x := (2 * x + 1) / 3
  step x := by omega
  round := .inl ⟨by omega, fun x => by omega⟩

end Rim

namespace Belt

variable {n : ℕ}

/-! ## Belts -/

/-- Both ends move on after every rung. -/
def prism (hn : 3 ≤ n) : Belt n n n where
  low := .steady hn
  high := .steady hn
  three_le := hn
  ring := hn
  moves _ := .inl rfl
  rung _ _ hlow _ := hlow

/-- The lower end moves on after every rung, and the upper one is the
apex. -/
def pyramid (hn : 3 ≤ n) : Belt n n 1 where
  low := .steady hn
  high := .apex n
  three_le := hn
  ring := hn
  moves _ := .inl rfl
  rung _ _ hlow _ := hlow

/-- Two numbers agree when their quotients by `s` agree around a ring and
their remainders do. -/
theorem modEq_of_div {s x y : ℕ}
    (hdiv : x / s ≡ y / s [MOD n])
    (hmod : x % s = y % s) : x ≡ y [MOD s * n] := by
  rw [← Nat.div_add_mod x s, ← Nat.div_add_mod y s, hmod]
  exact (hdiv.mul_left' s).add_right _

/-- The ends move on in turn, the lower one first. -/
def antiprism (hn : 3 ≤ n) : Belt (2 * n) n n where
  low := .alternate hn 1
  high := .alternate hn 0
  three_le := by omega
  ring := hn
  moves x := by
    change (x + 1 + 1) / 2 = (x + 1) / 2 + 1 ∨ (x + 1) / 2 = x / 2 + 1
    omega
  rung x y hlow hhigh := by
    change (x + 1) / 2 ≡ (y + 1) / 2 [MOD n] at hlow
    change x / 2 ≡ y / 2 [MOD n] at hhigh
    -- the lower end is ahead of the upper one at the odd rungs
    have hahead : ∀ z, (z + 1) / 2 = z / 2 + z % 2 := by omega
    rw [hahead, hahead] at hlow
    have hparity : x % 2 ≡ y % 2 [MOD n] := hhigh.add_left_cancel hlow
    exact modEq_of_div hhigh (hparity.eq_of_lt_of_lt (by omega) (by omega))

/-- The lower end moves on after every rung and the upper one after every
other rung. -/
def cupola (hn : 3 ≤ n) : Belt (2 * n) (2 * n) n where
  low := .steady (by omega)
  high := .alternate hn 0
  three_le := by omega
  ring := by omega
  moves _ := .inl rfl
  rung _ _ hlow _ := hlow

/-- The lower end moves on, then the upper one, then the lower one again. -/
def anticupola (hn : 3 ≤ n) : Belt (3 * n) (2 * n) n where
  low := .twoThirds hn
  high := .third hn
  three_le := by omega
  ring := by omega
  moves x := by
    change (2 * (x + 1) + 1) / 3 = (2 * x + 1) / 3 + 1 ∨
      (x + 1 + 1) / 3 = (x + 1) / 3 + 1
    obtain h | h | h : x % 3 = 0 ∨ x % 3 = 1 ∨ x % 3 = 2 := by omega
    · exact .inl (by omega)
    · exact .inr (by omega)
    · exact .inl (by omega)
  rung x y hlow hhigh := by
    change (2 * x + 1) / 3 ≡ (2 * y + 1) / 3 [MOD 2 * n] at hlow
    change (x + 1) / 3 ≡ (y + 1) / 3 [MOD n] at hhigh
    have hahead :
        ∀ z, (2 * z + 1) / 3 + 1 = 2 * ((z + 1) / 3) + (z + 1) % 3 := by
      omega
    have hlow := hlow.add_right 1
    rw [hahead, hahead] at hlow
    have hparity : (x + 1) % 3 ≡ (y + 1) % 3 [MOD 2 * n] :=
      (hhigh.mul_left' 2).add_left_cancel hlow
    have hnext :=
      modEq_of_div hhigh (hparity.eq_of_lt_of_lt (by omega) (by omega))
    exact hnext.add_right_cancel' 1

/-! ## Faces -/

section Faces

variable {p m q : ℕ} (belt : Belt p m q)

theorem corners_bottom :
    (belt.corners .bottom).map (number m) = Ring.downward 0 m := by
  rw [corners, List.map_map, Ring.downward, Ring.upward,
    ← List.range_eq_range']
  exact List.map_id _

theorem corners_top (hq : q ≠ 1) :
    (belt.corners .top).map (number m) = Ring.upward m q := by
  rw [corners, if_neg hq, List.map_map, Ring.upward,
    List.range'_eq_map_range]
  rfl

variable {belt} {x a c : ℕ}
  (ha : belt.low.count x = a)
  (hc : belt.high.count x = c)
include ha hc

/-- A face of the belt between two rungs that have both ends apart. -/
theorem corners_quadrilateral
    (ha' : belt.low.count (x + 1) = a + 1)
    (hc' : belt.high.count (x + 1) = c + 1) :
    (belt.corners (belt.side x)).map (number m) =
      [a % m, (a + 1) % m, m + (c + 1) % q, m + c % q] := by
  subst ha hc
  have hlow : belt.low.Moves x := ha'
  have hhigh : belt.high.Moves x := hc'
  rw [corners_side, sideCorners, if_pos hlow, if_pos hhigh]
  simp [number, Rim.vertex, ha', hc']

/-- A face of the belt between two rungs that meet in the upper ring. -/
theorem corners_low
    (ha' : belt.low.count (x + 1) = a + 1)
    (hc' : belt.high.count (x + 1) = c) :
    (belt.corners (belt.side x)).map (number m) =
      [a % m, (a + 1) % m, m + c % q] := by
  subst ha hc
  have hlow : belt.low.Moves x := ha'
  have hhigh : ¬ belt.high.Moves x := by
    rw [Rim.Moves]
    omega
  rw [corners_side, sideCorners, if_pos hlow, if_neg hhigh]
  simp [number, Rim.vertex, ha']

/-- A face of the belt between two rungs that meet in the lower ring. -/
theorem corners_high
    (ha' : belt.low.count (x + 1) = a)
    (hc' : belt.high.count (x + 1) = c + 1) :
    (belt.corners (belt.side x)).map (number m) =
      [a % m, m + (c + 1) % q, m + c % q] := by
  subst ha hc
  have hlow : ¬ belt.low.Moves x := by
    rw [Rim.Moves]
    omega
  have hhigh : belt.high.Moves x := hc'
  rw [corners_side, sideCorners, if_neg hlow, if_pos hhigh]
  simp [number, Rim.vertex, hc']

end Faces

/-! ## Lists of faces -/

theorem forall₂_flatMap {α β γ : Type} {R : β → γ → Prop} {list : List α}
    {f : α → List β} {g : α → List γ}
    (h : ∀ a ∈ list, List.Forall₂ R (f a) (g a)) :
    List.Forall₂ R (list.flatMap f) (list.flatMap g) := by
  induction list with
  | nil => exact .nil
  | cons a rest ih =>
      obtain ⟨hfirst, hrest⟩ := List.forall_mem_cons.mp h
      exact List.rel_append hfirst (ih hrest)

/-- Blocks of `s` numbers, in each of them the first `s` numbers in some
order, moved. -/
theorem perm_blocks {s : ℕ} {offsets : List ℕ}
    (h : offsets.Perm (List.range s))
    (n : ℕ) :
    ((List.range n).flatMap fun i => offsets.map (s * i + ·)).Perm
      (List.range (s * n)) := by
  induction n with
  | zero => simp
  | succ n ih =>
      rw [List.range_succ, List.flatMap_append, Nat.mul_succ, List.range_add,
        List.flatMap_singleton]
      exact ih.append (h.map _)

variable {p m q : ℕ} {belt : Belt p m q}

theorem listedBy_of_rings {order : List ℕ} {sides : Surface}
    (hperm : order.Perm (List.range p))
    (hq : q ≠ 1)
    (hsides : List.Forall₂ (fun x face => face ~r
      (belt.corners (belt.side x)).map (number m)) order sides) :
    belt.ListedBy order ([Ring.downward 0 m, Ring.upward m q] ++ sides) where
  perm := hperm
  faces := by
    rw [parts, rings, if_neg hq]
    refine .cons ?_ (.cons ?_ (List.forall₂_map_left_iff.mpr hsides))
    · rw [corners_bottom]
    · rw [corners_top belt hq]

theorem listedBy_of_apex {belt : Belt p m 1} {order : List ℕ}
    {sides : Surface}
    (hperm : order.Perm (List.range p))
    (hsides : List.Forall₂ (fun x face => face ~r
      (belt.corners (belt.side x)).map (number m)) order sides) :
    belt.ListedBy order (Ring.downward 0 m :: sides) where
  perm := hperm
  faces := by
    refine .cons ?_ (List.forall₂_map_left_iff.mpr hsides)
    rw [corners_bottom]

theorem prism_listedBy (hn : 3 ≤ n) :
    (prism hn).ListedBy (List.range n) (Ring.prismFaces n) := by
  refine listedBy_of_rings (.refl _) (by omega) ?_
  rw [List.forall₂_map_right_iff, List.forall₂_same]
  intro i hi
  have hlt := Nat.mod_eq_of_lt (List.mem_range.mp hi)
  have hcorners : ((prism hn).corners ((prism hn).side i)).map (number n) =
      [i % n, (i + 1) % n, n + (i + 1) % n, n + i % n] :=
    (prism hn).corners_quadrilateral rfl rfl rfl rfl
  rw [hcorners, hlt]
  exact .refl _

theorem pyramid_listedBy (hn : 3 ≤ n) :
    (pyramid hn).ListedBy (List.range n) (Ring.pyramidFaces n) := by
  refine listedBy_of_apex (.refl _) ?_
  rw [List.forall₂_map_right_iff, List.forall₂_same]
  intro i hi
  have hlt := Nat.mod_eq_of_lt (List.mem_range.mp hi)
  have hcorners :
      ((pyramid hn).corners ((pyramid hn).side i)).map (number n) =
        [i % n, (i + 1) % n, n + 0 % 1] :=
    (pyramid hn).corners_low rfl rfl rfl rfl
  rw [hcorners, hlt]
  exact .refl _

theorem antiprism_listedBy (hn : 3 ≤ n) :
    (antiprism hn).ListedBy ((List.range n).flatMap fun i =>
      [0, 1].map (2 * i + ·)) (Ring.antiprismFaces n) := by
  refine listedBy_of_rings (perm_blocks (.refl _) n) (by omega)
    (forall₂_flatMap fun i hi => ?_)
  have hlt := Nat.mod_eq_of_lt (List.mem_range.mp hi)
  have hlow :
      ((antiprism hn).corners ((antiprism hn).side (2 * i))).map (number n) =
        [i % n, (i + 1) % n, n + i % n] :=
    (antiprism hn).corners_low (show (2 * i + 1) / 2 = i by omega)
      (show (2 * i + 0) / 2 = i by omega) (show (2 * i + 1 + 1) / 2 =
        i + 1 by omega) (show (2 * i + 1 + 0) / 2 = i by omega)
  have hhigh : ((antiprism hn).corners ((antiprism hn).side (2 * i + 1))).map
      (number n) = [(i + 1) % n, n + (i + 1) % n, n + i % n] :=
    (antiprism hn).corners_high (show (2 * i + 1 + 1) / 2 = i + 1 by omega)
      (show (2 * i + 1 + 0) / 2 = i by omega) (show (2 * i + 1 + 1 + 1) / 2 =
        i + 1 by omega) (show (2 * i + 1 + 1 + 0) / 2 = i + 1 by omega)
  rw [hlt] at hlow hhigh
  refine .cons ?_ (.cons ?_ .nil)
  · exact hlow ▸ .refl _
  · -- the second triangle of the list starts at a corner of the upper ring
    exact hhigh ▸ ⟨1, rfl⟩

theorem cupola_listedBy (hn : 3 ≤ n) :
    (cupola hn).ListedBy ((List.range n).flatMap fun i =>
      [0, 1].map (2 * i + ·)) (Ring.cupolaFaces n) := by
  refine listedBy_of_rings (perm_blocks (.refl _) n) (by omega)
    (forall₂_flatMap fun i _ => ?_)
  have hlow :
      ((cupola hn).corners ((cupola hn).side (2 * i))).map (number (2 * n)) =
        [2 * i % (2 * n), (2 * i + 1) % (2 * n), 2 * n + i % n] :=
    (cupola hn).corners_low rfl (show (2 * i + 0) / 2 = i by omega) rfl
      (show (2 * i + 1 + 0) / 2 = i by omega)
  have hboth : ((cupola hn).corners ((cupola hn).side (2 * i + 1))).map
        (number (2 * n)) =
      [(2 * i + 1) % (2 * n), (2 * i + 1 + 1) % (2 * n), 2 * n + (i + 1) % n,
        2 * n + i % n] :=
    (cupola hn).corners_quadrilateral rfl (show (2 * i + 1 + 0) / 2 =
      i by omega) rfl (show (2 * i + 1 + 1 + 0) / 2 = i + 1 by omega)
  refine .cons ?_ (.cons ?_ .nil)
  · exact hlow ▸ .refl _
  · exact hboth ▸ .refl _

theorem anticupola_listedBy (hn : 3 ≤ n) :
    (anticupola hn).ListedBy ((List.range n).flatMap fun i =>
      [0, 2, 1].map (3 * i + ·)) (Ring.anticupolaFaces n) := by
  refine listedBy_of_rings (perm_blocks (by decide) n) (by omega)
    (forall₂_flatMap fun i _ => ?_)
  have hfirst : ((anticupola hn).corners ((anticupola hn).side (3 * i))).map
        (number (2 * n)) =
      [2 * i % (2 * n), (2 * i + 1) % (2 * n), 2 * n + i % n] :=
    (anticupola hn).corners_low (show (2 * (3 * i) + 1) / 3 = 2 * i by omega)
      (show (3 * i + 1) / 3 = i by omega) (show (2 * (3 * i + 1) + 1) / 3 =
        2 * i + 1 by omega) (show (3 * i + 1 + 1) / 3 = i by omega)
  have hsecond :
      ((anticupola hn).corners ((anticupola hn).side (3 * i + 2))).map
        (number (2 * n)) =
      [(2 * i + 1) % (2 * n), (2 * i + 1 + 1) % (2 * n),
        2 * n + (i + 1) % n] :=
    (anticupola hn).corners_low (show (2 * (3 * i + 2) + 1) / 3 =
        2 * i + 1 by omega) (show (3 * i + 2 + 1) / 3 = i + 1 by omega)
      (show (2 * (3 * i + 2 + 1) + 1) / 3 = 2 * i + 1 + 1 by omega)
      (show (3 * i + 2 + 1 + 1) / 3 = i + 1 by omega)
  have hthird :
      ((anticupola hn).corners ((anticupola hn).side (3 * i + 1))).map
        (number (2 * n)) =
      [(2 * i + 1) % (2 * n), 2 * n + (i + 1) % n, 2 * n + i % n] :=
    (anticupola hn).corners_high (show (2 * (3 * i + 1) + 1) / 3 =
        2 * i + 1 by omega) (show (3 * i + 1 + 1) / 3 = i by omega)
      (show (2 * (3 * i + 1 + 1) + 1) / 3 = 2 * i + 1 by omega)
      (show (3 * i + 1 + 1 + 1) / 3 = i + 1 by omega)
  refine .cons ?_ (.cons ?_ (.cons ?_ .nil))
  · exact hfirst ▸ .refl _
  · exact hsecond ▸ .refl _
  · exact hthird ▸ .refl _

end Belt

namespace Ring

/-- The solid has so many vertices and faces, its faces are a polyhedral
surface on all of its vertices, and its Euler characteristic is two. -/
structure IsPolyhedron (solid : Solid) (vertexCount faceCount : ℕ) :
    Prop where
  length_vertices : solid.vertices.length = vertexCount
  length_faces : solid.faces.length = faceCount
  polyhedral : solid.faces.Polyhedral vertexCount
  eulerCharacteristic : ∀ name, (solid.named name).eulerCharacteristic = 2

theorem isPolyhedron_of_listedBy {p m q vertexCount faceCount : ℕ}
    {belt : Belt p m q} {order : List ℕ} {solid : Solid}
    (h : belt.ListedBy order solid.faces)
    (hvertices : solid.vertices.length = m + q)
    (hvertexCount : m + q = vertexCount)
    (hfaceCount : (p + if q = 1 then 1 else 2) = faceCount) :
    IsPolyhedron solid vertexCount faceCount := by
  subst hvertexCount hfaceCount
  exact ⟨hvertices, h.length_eq, h.polyhedral,
    h.eulerCharacteristic rfl hvertices⟩

/-- For every number of sides from three on the solids between rings are
polyhedral and use exactly their vertices. -/
theorem solids_isPolyhedron {n : ℕ} (hn : 3 ≤ n) :
    IsPolyhedron (prism n) (2 * n) (n + 2) ∧
    IsPolyhedron (antiprism n) (2 * n) (2 * n + 2) ∧
    IsPolyhedron (pyramid n) (n + 1) (n + 1) ∧
    IsPolyhedron (cupola n) (3 * n) (2 * n + 2) ∧
    IsPolyhedron (anticupola n) (3 * n) (3 * n + 2) := by
  have hring : (if n = 1 then 1 else 2) = 2 := if_neg (by omega)
  refine ⟨?_, ?_, ?_, ?_, ?_⟩
  · exact isPolyhedron_of_listedBy (Belt.prism_listedBy hn)
      (by simp [prism, unitRing]) (Nat.two_mul n).symm (by rw [hring])
  · exact isPolyhedron_of_listedBy (Belt.antiprism_listedBy hn)
      (by simp [antiprism, unitRing]) (Nat.two_mul n).symm (by rw [hring])
  · exact isPolyhedron_of_listedBy (Belt.pyramid_listedBy hn)
      (by simp [pyramid, unitRing]) rfl rfl
  · exact isPolyhedron_of_listedBy (Belt.cupola_listedBy hn)
      (by simp [cupola, cupolaBase, cupolaTop]) (by omega) (by rw [hring])
  · exact isPolyhedron_of_listedBy (Belt.anticupola_listedBy hn)
      (by simp [anticupola, cupolaBase, cupolaTop]) (by omega)
      (by rw [hring])

/-- The solids on triangles. -/
theorem solids_isPolyhedron_triangle : 3 ≤ 3 ∧
    IsPolyhedron (prism 3) 6 5 ∧ IsPolyhedron (antiprism 3) 6 8 ∧
    IsPolyhedron (pyramid 3) 4 4 ∧ IsPolyhedron (cupola 3) 9 8 ∧
    IsPolyhedron (anticupola 3) 9 11 :=
  ⟨by decide, solids_isPolyhedron (by decide)⟩

end Ring

end Polyhedra
