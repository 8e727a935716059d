import Mathlib
import Polyhedra.Proofs.Incidence.Cycle
import Polyhedra.Proofs.Surface.Cycle

/-!
# Belts

A belt is a row of faces around a solid between a lower and an upper ring.
Neighbouring faces of the belt meet at a rung, which joins a vertex of the
lower ring to one of the upper ring.  From one rung to the next each of the
two ends stays where it is or moves on by one vertex, and once around the
belt it goes once around its ring.  In place of the upper ring there may be
an apex, where the upper end always stays.

With its rings as faces a belt is a polyhedral incidence, when it has at
least three rungs, a lower ring of at least three vertices and no two rungs
with the same ends.  Rungs are counted on and on around the belt; a rung is
the same as the one `p` further on.
-/

namespace Polyhedra

/-- The end of the rungs `0, 1, …` of a belt with `p` rungs in a ring of `m`
vertices: the vertex of a rung is the number of its steps, counted around the
ring.  An apex is a ring of one vertex without steps. -/
structure Rim (p m : ℕ) where
  count : ℕ → ℕ
  step : ∀ x, count (x + 1) = count x ∨ count (x + 1) = count x + 1
  round :
    3 ≤ m ∧ (∀ x, count (x + p) = count x + m) ∨ m = 1 ∧ ∀ x, count x = 0

namespace Rim

variable {p m : ℕ} (rim : Rim p m)

/-- The end moves on between the rung `x` and the next one. -/
def Moves (x : ℕ) : Prop :=
  rim.count (x + 1) = rim.count x + 1

instance (x : ℕ) : Decidable (rim.Moves x) :=
  inferInstanceAs (Decidable (_ = _))

def vertex (x : ℕ) : ℕ :=
  rim.count x % m

include rim in
theorem pos : 0 < m := by
  rcases rim.round with ⟨hm, -⟩ | ⟨rfl, -⟩ <;> omega

theorem vertex_lt (x : ℕ) : rim.vertex x < m :=
  Nat.mod_lt _ rim.pos

theorem monotone : Monotone rim.count := by
  refine monotone_nat_of_le_succ fun x => ?_
  rcases rim.step x with h | h <;> omega

theorem count_succ_of_not_moves {x : ℕ} (h : ¬ rim.Moves x) :
    rim.count (x + 1) = rim.count x :=
  (rim.step x).resolve_right h

theorem vertex_succ_of_not_moves {x : ℕ} (h : ¬ rim.Moves x) :
    rim.vertex (x + 1) = rim.vertex x := by
  rw [vertex, rim.count_succ_of_not_moves h, vertex]

variable {rim} in
theorem Moves.vertex_succ {x : ℕ} (h : rim.Moves x) :
    rim.vertex (x + 1) = (rim.vertex x + 1) % m := by
  rw [vertex, h, vertex, Nat.mod_add_mod]

include rim in
theorem ring_of_ne_one (h : m ≠ 1) : 3 ≤ m := by
  rcases rim.round with ⟨hm, -⟩ | ⟨hone, -⟩
  · exact hm
  · exact (h hone).elim

variable {rim} in
/-- Only a ring has steps. -/
theorem Moves.ring {x : ℕ} (h : rim.Moves x) : 3 ≤ m := by
  rcases rim.round with ⟨hm, -⟩ | ⟨-, hzero⟩
  · exact hm
  · rw [Moves, hzero, hzero] at h
    omega

variable {rim} in
theorem count_add_mul
    (h : ∀ x, rim.count (x + p) = rim.count x + m)
    (x t : ℕ) :
    rim.count (x + p * t) = rim.count x + m * t := by
  induction t with
  | zero => rfl
  | succ t ih =>
      rw [Nat.mul_succ, ← Nat.add_assoc, h, ih, Nat.mul_succ, Nat.add_assoc]

/-- The rungs after a round have the same ends again. -/
theorem exists_period :
    ∃ d, m ∣ d ∧ ∀ x t, rim.count (x + p * t) = rim.count x + d * t := by
  rcases rim.round with ⟨-, hround⟩ | ⟨-, hzero⟩
  · exact ⟨m, dvd_rfl, count_add_mul hround⟩
  · exact ⟨0, dvd_zero m, fun x t => by rw [hzero, hzero, Nat.zero_mul]⟩

theorem vertex_add_mul (x t : ℕ) :
    rim.vertex (x + p * t) = rim.vertex x := by
  obtain ⟨d, ⟨e, rfl⟩, hperiod⟩ := rim.exists_period
  rw [vertex, hperiod, Nat.mul_assoc, Nat.add_mul_mod_self_left, vertex]

theorem moves_add_mul {x t : ℕ} : rim.Moves (x + p * t) ↔ rim.Moves x := by
  obtain ⟨d, -, hperiod⟩ := rim.exists_period
  rw [Moves, Moves, Nat.add_right_comm, hperiod, hperiod]
  omega

theorem vertex_congr {x y : ℕ} (h : x ≡ y [MOD p]) :
    rim.vertex x = rim.vertex y := by
  wlog hle : x ≤ y generalizing x y
  · exact (this h.symm (Nat.le_of_not_le hle)).symm
  obtain ⟨t, ht⟩ := (Nat.modEq_iff_dvd' hle).mp h
  obtain rfl : y = x + p * t := by omega
  exact (rim.vertex_add_mul x t).symm

theorem moves_congr {x y : ℕ} (h : x ≡ y [MOD p]) :
    rim.Moves x ↔ rim.Moves y := by
  wlog hle : x ≤ y generalizing x y
  · exact (this h.symm (Nat.le_of_not_le hle)).symm
  obtain ⟨t, ht⟩ := (Nat.modEq_iff_dvd' hle).mp h
  obtain rfl : y = x + p * t := by omega
  exact rim.moves_add_mul.symm

/-- Rungs with the same vertex are reached after the same number of steps,
one of them perhaps some rounds later. -/
theorem exists_count_eq {x y : ℕ} (h : rim.vertex x = rim.vertex y) :
    ∃ x' y', x' ≡ x [MOD p] ∧ y' ≡ y [MOD p] ∧
      rim.count x' = rim.count y' := by
  wlog hle : rim.count x ≤ rim.count y generalizing x y
  · obtain ⟨y', x', hy, hx, heq⟩ := this h.symm (Nat.le_of_not_le hle)
    exact ⟨x', y', hx, hy, heq.symm⟩
  rcases rim.round with ⟨-, hround⟩ | ⟨-, hzero⟩
  · obtain ⟨t, ht⟩ := (Nat.modEq_iff_dvd' hle).mp h
    have hcount := count_add_mul hround x t
    exact ⟨x + p * t, y, Nat.add_mul_mod_self_left x p t, rfl, by omega⟩
  · exact ⟨x, y, rfl, rfl, by rw [hzero, hzero]⟩

/-- Every edge of the ring belongs to one face of the belt. -/
theorem modEq_of_moves {x y : ℕ}
    (hx : rim.Moves x)
    (hy : rim.Moves y)
    (h : rim.vertex x = rim.vertex y) : x ≡ y [MOD p] := by
  obtain ⟨x', y', hx', hy', hcount⟩ := rim.exists_count_eq h
  rw [← rim.moves_congr hx', Moves] at hx
  rw [← rim.moves_congr hy', Moves] at hy
  have heq : x' = y' := by
    rcases Nat.lt_trichotomy x' y' with hlt | heq | hlt
    · have := rim.monotone (show x' + 1 ≤ y' from hlt)
      omega
    · exact heq
    · have := rim.monotone (show y' + 1 ≤ x' from hlt)
      omega
  exact (hx'.symm.trans (heq ▸ .refl _)).trans hy'

/-- The steps along a ring go on, one after the other. -/
theorem exists_moves_at
    (hround : ∀ x, rim.count (x + p) = rim.count x + m)
    {target : ℕ}
    (hstart : rim.count 0 ≤ target) :
    ∃ x, rim.Moves x ∧ rim.count x = target := by
  have hexists : ∃ x, target < rim.count x := by
    refine ⟨0 + p * (target + 1), ?_⟩
    have hmany : target + 1 ≤ m * (target + 1) :=
      Nat.le_mul_of_pos_left _ rim.pos
    rw [count_add_mul hround]
    omega
  -- the rung before the first one with more steps
  have hfirst := Nat.find_spec hexists
  cases hfind : Nat.find hexists with
  | zero =>
      rw [hfind] at hfirst
      omega
  | succ x =>
      rw [hfind] at hfirst
      have hbefore : rim.count x ≤ target :=
        Nat.le_of_not_lt (Nat.find_min hexists (by omega))
      have hstep := rim.step x
      have hcount : rim.count x = target := by omega
      exact ⟨x, by rw [Moves]; omega, hcount⟩

theorem exists_moves
    (hm : 3 ≤ m)
    {a : ℕ}
    (ha : a < m) :
    ∃ x, rim.Moves x ∧ rim.vertex x = a := by
  have hstart : rim.count 0 ≤ a + m * rim.count 0 :=
    (Nat.le_mul_of_pos_left _ rim.pos).trans (Nat.le_add_left _ a)
  obtain ⟨x, hx, hcount⟩ :=
    rim.exists_moves_at (rim.round.resolve_right (by omega)).2 hstart
  refine ⟨x, hx, ?_⟩
  rw [vertex, hcount, Nat.add_mul_mod_self_left, Nat.mod_eq_of_lt ha]

theorem exists_vertex {a : ℕ} (ha : a < m) : ∃ x, rim.vertex x = a := by
  rcases rim.round with ⟨hm, -⟩ | ⟨rfl, -⟩
  · obtain ⟨x, -, hx⟩ := rim.exists_moves hm ha
    exact ⟨x, hx⟩
  · exact ⟨0, by rw [vertex, Nat.mod_one]; omega⟩

/-- What joins the faces on the two sides of every rung at its vertex joins
all faces at the rungs of one vertex. -/
theorem joined {α : Type} (r : ℕ → α → α → Prop) {side : ℕ → α}
    (hside : ∀ {x y}, x ≡ y [MOD p] → side x = side y)
    (hrung :
      ∀ x, Relation.EqvGen (r (rim.vertex (x + 1))) (side x) (side (x + 1)))
    {x y : ℕ}
    (h : rim.vertex x = rim.vertex y) :
    Relation.EqvGen (r (rim.vertex x)) (side x) (side y) := by
  have hrow : ∀ x t, rim.count (x + t) = rim.count x →
      Relation.EqvGen (r (rim.vertex x)) (side x) (side (x + t)) := by
    intro x t
    induction t with
    | zero => exact fun _ => .refl _
    | succ t ih =>
        intro hlast
        have hcount : rim.count (x + t) = rim.count x :=
          Nat.le_antisymm ((rim.monotone (Nat.le_succ (x + t))).trans
            hlast.le) (rim.monotone (Nat.le_add_right x t))
        have hvertex : rim.vertex (x + t + 1) = rim.vertex x :=
          congrArg (· % m) hlast
        exact (ih hcount).trans _ _ _ (hvertex ▸ hrung (x + t))
  obtain ⟨x', y', hx, hy, hcount⟩ := rim.exists_count_eq h
  rw [← hside hx, ← hside hy, ← rim.vertex_congr hx]
  rcases Nat.le_total x' y' with hle | hle
  · obtain ⟨t, rfl⟩ := Nat.exists_eq_add_of_le hle
    exact hrow x' t hcount.symm
  · obtain ⟨t, rfl⟩ := Nat.exists_eq_add_of_le hle
    have hvertex : rim.vertex (y' + t) = rim.vertex y' :=
      congrArg (· % m) hcount
    exact hvertex ▸ (hrow y' t hcount).symm

/-- A face of the belt and the face in the ring have the edge between them in
opposite directions. -/
theorem Moves.ne_reverse {rim : Rim p m} {x a : ℕ}
    (h : rim.Moves x)
    (ha : a < m)
    (hx : rim.vertex x = (a + 1) % m) :
    rim.vertex (x + 1) ≠ a := by
  intro hnext
  rw [h.vertex_succ, hx, Nat.mod_add_mod] at hnext
  have hm := h.ring
  rcases Nat.lt_or_ge (a + 2) m with hlt | hge
  · rw [Nat.mod_eq_of_lt hlt] at hnext
    omega
  · rw [Nat.mod_eq_sub_mod hge, Nat.mod_eq_of_lt (by omega)] at hnext
    omega

theorem Moves.vertex_ne {rim : Rim p m} {x : ℕ} (h : rim.Moves x) :
    rim.vertex x ≠ rim.vertex (x + 1) := by
  intro heq
  have hlt := rim.vertex_lt x
  have hm := h.ring
  rw [h.vertex_succ] at heq
  rcases Nat.lt_or_ge (rim.vertex x + 1) m with hnext | hlast
  · rw [Nat.mod_eq_of_lt hnext] at heq
    omega
  · rw [show rim.vertex x + 1 = m by omega, Nat.mod_self] at heq
    omega

end Rim

/-- A belt with `p` rungs between a ring of `m` vertices and a ring of `q`
vertices or an apex. -/
structure Belt (p m q : ℕ) where
  low : Rim p m
  high : Rim p q
  three_le : 3 ≤ p
  ring : 3 ≤ m
  /-- Every face of the belt has an edge in one of the rings. -/
  moves : ∀ x, low.Moves x ∨ high.Moves x
  /-- No two rungs have the same ends. -/
  rung : ∀ x y, low.vertex x = low.vertex y → high.vertex x = high.vertex y →
    x ≡ y [MOD p]

namespace Belt

/-- A vertex of the lower ring or one of the upper ring. -/
inductive Corner where
  | low (a : ℕ)
  | high (c : ℕ)
deriving DecidableEq

/-- A ring as a face, or the face of the belt between two rungs. -/
inductive Part (p : ℕ) where
  | bottom
  | top
  | side (x : Fin p)
deriving DecidableEq

variable {p m q : ℕ} (belt : Belt p m q)

include belt in
theorem pos : 0 < p := by
  have := belt.three_le
  omega

/-- The face between the rungs `x` and `x + 1`. -/
def side (x : ℕ) : Part p :=
  .side ⟨x % p, Nat.mod_lt x belt.pos⟩

theorem side_eq_iff {x y : ℕ} :
    belt.side x = belt.side y ↔ x ≡ y [MOD p] := by
  simp [side, Nat.ModEq]

theorem side_val (x : Fin p) : belt.side x = .side x := by
  simp [side, Nat.mod_eq_of_lt x.isLt]

/-- The corners of the face between two rungs; an end that stays is one
corner. -/
def sideCorners (x : ℕ) : List Corner :=
  (if belt.low.Moves x
    then [.low (belt.low.vertex x), .low (belt.low.vertex (x + 1))]
    else [.low (belt.low.vertex x)]) ++
  if belt.high.Moves x
    then [.high (belt.high.vertex (x + 1)), .high (belt.high.vertex x)]
    else [.high (belt.high.vertex x)]

/-- The corners of every face; an apex is no face. -/
def corners : Part p → List Corner
  | .bottom => (List.range m).reverse.map .low
  | .top => if q = 1 then [] else (List.range q).map .high
  | .side x => belt.sideCorners x

/-- The directed edges of the faces. -/
def incidence : Incidence (Part p) Corner := fun part v w =>
  (v, w) ∈ Face.steps (belt.corners part)

/-- The directed edges, those of the belt by their rungs. -/
inductive Flag : Part p → Corner → Corner → Prop
  | bottom {a : ℕ} (ha : a < m) : Flag .bottom (.low ((a + 1) % m)) (.low a)
  | top {c : ℕ} (hc : c < q) (hq : q ≠ 1) :
      Flag .top (.high c) (.high ((c + 1) % q))
  | along {x : ℕ} (hx : belt.low.Moves x) : Flag (belt.side x)
      (.low (belt.low.vertex x)) (.low (belt.low.vertex (x + 1)))
  | up (x : ℕ) : Flag (belt.side x) (.low (belt.low.vertex (x + 1)))
      (.high (belt.high.vertex (x + 1)))
  | back {x : ℕ} (hx : belt.high.Moves x) : Flag (belt.side x)
      (.high (belt.high.vertex (x + 1))) (.high (belt.high.vertex x))
  | down (x : ℕ) : Flag (belt.side x) (.high (belt.high.vertex x))
      (.low (belt.low.vertex x))

variable {belt} {f g : Part p} {v w : Corner}

/-! ## The edges of the faces -/

theorem mem_steps_range {n : ℕ} {a b : ℕ} :
    (a, b) ∈ Face.steps (List.range n) ↔ a < n ∧ b = (a + 1) % n := by
  rw [Face.mem_steps_iff]
  simp only [List.getElem?_eq_some_iff, List.length_range,
    List.getElem_range]
  constructor
  · rintro ⟨k, ⟨hk, rfl⟩, -, rfl⟩
    exact ⟨hk, rfl⟩
  · rintro ⟨ha, rfl⟩
    exact ⟨a, ⟨ha, rfl⟩, Nat.mod_lt _ (by omega), rfl⟩

theorem steps_sideCorners {x : ℕ} :
    (v, w) ∈ Face.steps (belt.sideCorners x) ↔
      belt.low.Moves x ∧ v = .low (belt.low.vertex x) ∧
      w = .low (belt.low.vertex (x + 1)) ∨
      v = .low (belt.low.vertex (x + 1)) ∧
      w = .high (belt.high.vertex (x + 1)) ∨
      belt.high.Moves x ∧ v = .high (belt.high.vertex (x + 1)) ∧
      w = .high (belt.high.vertex x) ∨
      v = .high (belt.high.vertex x) ∧ w = .low (belt.low.vertex x) := by
  unfold sideCorners
  by_cases hlow : belt.low.Moves x <;> by_cases hhigh : belt.high.Moves x
  · simp [hlow, hhigh, Face.mem_steps_four]
  · simp [hlow, hhigh, Face.mem_steps_three,
      belt.high.vertex_succ_of_not_moves hhigh]
  · simp [hlow, hhigh, Face.mem_steps_three,
      belt.low.vertex_succ_of_not_moves hlow]
  · exact ((belt.moves x).elim hlow hhigh).elim

theorem sideCorners_mod (x : ℕ) :
    belt.sideCorners (x % p) = belt.sideCorners x := by
  have hmod : x % p ≡ x [MOD p] := Nat.mod_modEq x p
  have hnext : x % p + 1 ≡ x + 1 [MOD p] := hmod.add_right 1
  simp only [sideCorners, belt.low.moves_congr hmod,
    belt.high.moves_congr hmod, belt.low.vertex_congr hmod,
    belt.high.vertex_congr hmod, belt.low.vertex_congr hnext,
    belt.high.vertex_congr hnext]

theorem corners_side (x : ℕ) :
    belt.corners (belt.side x) = belt.sideCorners x :=
  sideCorners_mod x

theorem incidence_side {x : ℕ} :
    belt.incidence (belt.side x) v w ↔
      (v, w) ∈ Face.steps (belt.sideCorners x) := by
  rw [incidence, corners_side]

theorem incidence_iff : belt.incidence f v w ↔ belt.Flag f v w := by
  constructor
  · intro h
    cases f with
    | bottom =>
        rw [incidence, corners, Face.steps_map] at h
        obtain ⟨⟨a, b⟩, hstep, heq⟩ := List.mem_map.mp h
        obtain ⟨rfl, rfl⟩ := Prod.mk.inj heq
        obtain ⟨hb, rfl⟩ :=
          mem_steps_range.mp (Face.mem_edges_reverse.mp hstep)
        exact .bottom hb
    | top =>
        rw [incidence, corners] at h
        split_ifs at h with hq
        · simp [Face.steps] at h
        · rw [Face.steps_map] at h
          obtain ⟨⟨a, b⟩, hstep, heq⟩ := List.mem_map.mp h
          obtain ⟨rfl, rfl⟩ := Prod.mk.inj heq
          obtain ⟨ha, rfl⟩ := mem_steps_range.mp hstep
          exact .top ha hq
    | side x =>
        rw [← belt.side_val, incidence_side, steps_sideCorners] at h
        rw [← belt.side_val]
        obtain ⟨hx, rfl, rfl⟩ | ⟨rfl, rfl⟩ | ⟨hx, rfl, rfl⟩ | ⟨rfl, rfl⟩ := h
        · exact .along hx
        · exact .up x
        · exact .back hx
        · exact .down x
  · intro h
    cases h with
    | bottom ha =>
        rw [incidence, corners, Face.steps_map]
        exact List.mem_map.mpr ⟨_,
          Face.mem_edges_reverse.mpr (mem_steps_range.mpr ⟨ha, rfl⟩), rfl⟩
    | top hc hq =>
        rw [incidence, corners, if_neg hq, Face.steps_map]
        exact List.mem_map.mpr ⟨_, mem_steps_range.mpr ⟨hc, rfl⟩, rfl⟩
    | along hx =>
        exact incidence_side.mpr
          (steps_sideCorners.mpr (.inl ⟨hx, rfl, rfl⟩))
    | up x =>
        exact incidence_side.mpr
          (steps_sideCorners.mpr (.inr (.inl ⟨rfl, rfl⟩)))
    | back hx =>
        exact incidence_side.mpr
          (steps_sideCorners.mpr (.inr (.inr (.inl ⟨hx, rfl, rfl⟩))))
    | down x =>
        exact incidence_side.mpr
          (steps_sideCorners.mpr (.inr (.inr (.inr ⟨rfl, rfl⟩))))

theorem nodup_sideCorners (x : ℕ) : (belt.sideCorners x).Nodup := by
  unfold sideCorners
  by_cases hlow : belt.low.Moves x <;> by_cases hhigh : belt.high.Moves x
  · simp [hlow, hhigh, hlow.vertex_ne, hhigh.vertex_ne.symm]
  · simp [hlow, hhigh, hlow.vertex_ne]
  · simp [hlow, hhigh, hhigh.vertex_ne.symm]
  · simp [hlow, hhigh]

theorem nodup_corners (part : Part p) : (belt.corners part).Nodup := by
  have hlow : Function.Injective Corner.low := fun _ _ => Corner.low.inj
  have hhigh : Function.Injective Corner.high := fun _ _ => Corner.high.inj
  cases part with
  | bottom => exact (List.nodup_reverse.mpr List.nodup_range).map hlow
  | top =>
      rw [corners]
      split_ifs
      · exact List.nodup_nil
      · exact List.nodup_range.map hhigh
  | side x => exact nodup_sideCorners x.val

theorem incidence_cyclic : belt.incidence.Cyclic :=
  .of_isCycle fun part _ _ _ =>
    Incidence.isCycle_of_steps (nodup_corners part) fun _ _ => Iff.rfl

/-! ## The faces at an edge -/

theorem low_low {a b : ℕ} (h : belt.Flag f (.low a) (.low b)) :
    (b < m ∧ a = (b + 1) % m ∧ f = .bottom) ∨
      ∃ x, belt.low.Moves x ∧ a = belt.low.vertex x ∧
        b = belt.low.vertex (x + 1) ∧ f = belt.side x := by
  cases h with
  | bottom hb => exact .inl ⟨hb, rfl, rfl⟩
  | along hx => exact .inr ⟨_, hx, rfl, rfl, rfl⟩

theorem low_high {a c : ℕ} (h : belt.Flag f (.low a) (.high c)) :
    ∃ x, a = belt.low.vertex (x + 1) ∧ c = belt.high.vertex (x + 1) ∧
      f = belt.side x := by
  cases h with
  | up x => exact ⟨x, rfl, rfl, rfl⟩

theorem high_high {c d : ℕ} (h : belt.Flag f (.high c) (.high d)) :
    (c < q ∧ d = (c + 1) % q ∧ f = .top) ∨
      ∃ x, belt.high.Moves x ∧ c = belt.high.vertex (x + 1) ∧
        d = belt.high.vertex x ∧ f = belt.side x := by
  cases h with
  | top hc hq => exact .inl ⟨hc, rfl, rfl⟩
  | back hx => exact .inr ⟨_, hx, rfl, rfl, rfl⟩

theorem high_low {c a : ℕ} (h : belt.Flag f (.high c) (.low a)) : ∃ x,
    c = belt.high.vertex x ∧ a = belt.low.vertex x ∧ f = belt.side x := by
  cases h with
  | down x => exact ⟨x, rfl, rfl, rfl⟩

theorem owner_unique
    (hf : belt.Flag f v w)
    (hg : belt.Flag g v w) : f = g := by
  match v, w with
  | .low a, .low b =>
      rcases low_low hf with ⟨hb, ha, rfl⟩ | ⟨x, hx, ha, hb, rfl⟩ <;>
        rcases low_low hg with ⟨hb', ha', rfl⟩ | ⟨y, hy, ha', hb', rfl⟩
      · rfl
      · exact (hy.ne_reverse hb (ha'.symm.trans ha) hb'.symm).elim
      · exact (hx.ne_reverse hb' (ha.symm.trans ha') hb.symm).elim
      · exact belt.side_eq_iff.mpr
          (belt.low.modEq_of_moves hx hy (ha.symm.trans ha'))
  | .low a, .high c =>
      obtain ⟨x, ha, hc, rfl⟩ := low_high hf
      obtain ⟨y, ha', hc', rfl⟩ := low_high hg
      have hrung := belt.rung _ _ (ha.symm.trans ha') (hc.symm.trans hc')
      exact belt.side_eq_iff.mpr (Nat.ModEq.add_right_cancel' 1 hrung)
  | .high c, .high d =>
      rcases high_high hf with ⟨hc, hd, rfl⟩ | ⟨x, hx, hc, hd, rfl⟩ <;>
        rcases high_high hg with ⟨hc', hd', rfl⟩ | ⟨y, hy, hc', hd', rfl⟩
      · rfl
      · exact (hy.ne_reverse hc (hd'.symm.trans hd) hc'.symm).elim
      · exact (hx.ne_reverse hc' (hd.symm.trans hd') hc.symm).elim
      · exact belt.side_eq_iff.mpr
          (belt.high.modEq_of_moves hx hy (hd.symm.trans hd'))
  | .high c, .low a =>
      obtain ⟨x, hc, ha, rfl⟩ := high_low hf
      obtain ⟨y, hc', ha', rfl⟩ := high_low hg
      exact belt.side_eq_iff.mpr
        (belt.rung x y (ha.symm.trans ha') (hc.symm.trans hc'))

/-- Two faces with a common edge: a ring with a face of the belt, or two
neighbours in the belt. -/
inductive Meets (belt : Belt p m q) :
    Part p → Part p → Corner → Corner → Prop
  | bottom {x : ℕ} (hx : belt.low.Moves x) : Meets belt .bottom (belt.side x)
      (.low (belt.low.vertex (x + 1))) (.low (belt.low.vertex x))
  | rung (x : ℕ) : Meets belt (belt.side x) (belt.side (x + 1))
      (.low (belt.low.vertex (x + 1))) (.high (belt.high.vertex (x + 1)))
  | top {x : ℕ} (hx : belt.high.Moves x) : Meets belt .top (belt.side x)
      (.high (belt.high.vertex x)) (.high (belt.high.vertex (x + 1)))

theorem Meets.flags (h : belt.Meets f g v w) :
    belt.Flag f v w ∧ belt.Flag g w v := by
  cases h with
  | @bottom x hx =>
      rw [hx.vertex_succ]
      exact ⟨.bottom (belt.low.vertex_lt x), hx.vertex_succ ▸ .along hx⟩
  | rung x => exact ⟨.up x, .down (x + 1)⟩
  | @top x hx =>
      rw [hx.vertex_succ]
      have hq : q ≠ 1 := by
        have := hx.ring
        omega
      exact ⟨.top (belt.high.vertex_lt x) hq, hx.vertex_succ ▸ .back hx⟩

theorem exists_meets (h : belt.Flag f v w) :
    ∃ g, belt.Meets f g v w ∨ belt.Meets g f w v := by
  cases h with
  | @bottom a ha =>
      obtain ⟨x, hx, rfl⟩ := belt.low.exists_moves belt.ring ha
      rw [← hx.vertex_succ]
      exact ⟨_, .inl (.bottom hx)⟩
  | @top c hc hq =>
      obtain ⟨x, hx, rfl⟩ :=
        belt.high.exists_moves (belt.high.ring_of_ne_one hq) hc
      rw [← hx.vertex_succ]
      exact ⟨_, .inl (.top hx)⟩
  | along hx => exact ⟨_, .inr (.bottom hx)⟩
  | up x => exact ⟨_, .inl (.rung x)⟩
  | back hx => exact ⟨_, .inr (.top hx)⟩
  | down x =>
      -- the rung `x` is the same as the one after `p - 1` more
      have hnext : x + p - 1 + 1 ≡ x [MOD p] := by
        have := belt.pos
        rw [show x + p - 1 + 1 = x + p by omega]
        exact Nat.add_mod_right x p
      rw [← belt.low.vertex_congr hnext, ← belt.high.vertex_congr hnext,
        ← belt.side_eq_iff.mpr hnext]
      exact ⟨_, .inr (.rung _)⟩

theorem side_succ_ne (x : ℕ) : belt.side (x + 1) ≠ belt.side x := by
  intro heq
  have hdvd :=
    (Nat.modEq_iff_dvd' (Nat.le_succ x)).mp (belt.side_eq_iff.mp heq).symm
  have hle := Nat.le_of_dvd (by omega) hdvd
  have := belt.three_le
  omega

theorem side_add_two_ne (x : ℕ) : belt.side (x + 2) ≠ belt.side x := by
  intro heq
  have hdvd :=
    (Nat.modEq_iff_dvd' (Nat.le_add_right x 2)).mp
      (belt.side_eq_iff.mp heq).symm
  have hle := Nat.le_of_dvd (by omega) hdvd
  have := belt.three_le
  omega

theorem Meets.ne (h : belt.Meets f g v w) : f ≠ g := by
  cases h with
  | bottom hx => exact nofun
  | rung x => exact (side_succ_ne x).symm
  | top hx => exact nofun

theorem incidence_closed : belt.incidence.Closed where
  toCyclic := incidence_cyclic
  owner_unique hf hg :=
    owner_unique (incidence_iff.mp hf) (incidence_iff.mp hg)
  mate h := by
    obtain ⟨g, hg | hg⟩ := exists_meets (incidence_iff.mp h)
    · exact ⟨g, hg.ne.symm, incidence_iff.mpr hg.flags.2⟩
    · exact ⟨g, hg.ne, incidence_iff.mpr hg.flags.1⟩

/-! ## Faces with two common edges -/

theorem Meets.unique {f' g' : Part p} {v' w' : Corner}
    (h : belt.Meets f g v w)
    (h' : belt.Meets f' g' v' w')
    (hf : f = f')
    (hg : g = g') : v = v' ∧ w = w' := by
  cases h with
  | bottom hx =>
      cases h' with
      | bottom hy =>
          have hxy := belt.side_eq_iff.mp hg
          rw [belt.low.vertex_congr hxy,
            belt.low.vertex_congr (hxy.add_right 1)]
          exact ⟨rfl, rfl⟩
      | rung y => exact nomatch hf
      | top hy => exact nomatch hf
  | rung x =>
      cases h' with
      | bottom hy => exact nomatch hf
      | rung y =>
          have hxy := belt.side_eq_iff.mp hg
          rw [belt.low.vertex_congr hxy, belt.high.vertex_congr hxy]
          exact ⟨rfl, rfl⟩
      | top hy => exact nomatch hf
  | top hx =>
      cases h' with
      | bottom hy => exact nomatch hf
      | rung y => exact nomatch hf
      | top hy =>
          have hxy := belt.side_eq_iff.mp hg
          rw [belt.high.vertex_congr hxy,
            belt.high.vertex_congr (hxy.add_right 1)]
          exact ⟨rfl, rfl⟩

/-- With three faces or more in the belt a face is not on both sides of its
neighbour. -/
theorem Meets.not_meets {f' g' : Part p} {v' w' : Corner}
    (h : belt.Meets f g v w)
    (hf : f = f')
    (hg : g = g') :
    ¬ belt.Meets g' f' v' w' := by
  intro h'
  cases h with
  | bottom hx =>
      cases h' with
      | bottom hy => exact nomatch hf
      | rung y => exact nomatch hf
      | top hy => exact nomatch hf
  | rung x =>
      cases h' with
      | bottom hy => exact nomatch hg
      | rung y =>
          have hnext := (belt.side_eq_iff.mp hg).add_right 1
          exact side_add_two_ne x
            ((belt.side_eq_iff.mpr hnext).trans hf.symm)
      | top hy => exact nomatch hg
  | top hx =>
      cases h' with
      | bottom hy => exact nomatch hf
      | rung y => exact nomatch hf
      | top hy => exact nomatch hf

theorem meets_of_flags
    (hf : belt.Flag f v w)
    (hg : belt.Flag g w v) :
    belt.Meets f g v w ∨ belt.Meets g f w v := by
  obtain ⟨g', h | h⟩ := exists_meets hf
  · exact .inl (owner_unique h.flags.2 hg ▸ h)
  · exact .inr (owner_unique h.flags.1 hg ▸ h)

theorem shared {v' w' : Corner}
    (hf : belt.Flag f v w)
    (hg : belt.Flag g w v)
    (hf' : belt.Flag f v' w')
    (hg' : belt.Flag g w' v') : v = v' := by
  rcases meets_of_flags hf hg with h | h <;>
    rcases meets_of_flags hf' hg' with h' | h'
  · exact (h.unique h' rfl rfl).1
  · exact (h.not_meets rfl rfl h').elim
  · exact (h.not_meets rfl rfl h').elim
  · exact (h.unique h' rfl rfl).2

/-! ## The faces around a vertex -/

theorem around_low (x : ℕ) :
    Relation.EqvGen (belt.incidence.Around (.low (belt.low.vertex (x + 1))))
      (belt.side x) (belt.side (x + 1)) := by
  have hrung : belt.Meets (belt.side x) (belt.side (x + 1)) _ _ := .rung x
  obtain ⟨hup, hdown⟩ := hrung.flags
  exact .symm _ _
    (.rel _ _ ⟨_, incidence_iff.mpr hup, incidence_iff.mpr hdown⟩)

theorem around_high (x : ℕ) :
    Relation.EqvGen
      (belt.incidence.Around (.high (belt.high.vertex (x + 1))))
      (belt.side x) (belt.side (x + 1)) := by
  have hrung : belt.Meets (belt.side x) (belt.side (x + 1)) _ _ := .rung x
  obtain ⟨hup, hdown⟩ := hrung.flags
  exact .rel _ _ ⟨_, incidence_iff.mpr hdown, incidence_iff.mpr hup⟩

/-- Every face at a vertex of the lower ring is joined to a face of the belt
at a rung there. -/
theorem exists_side_low {a : ℕ} (h : belt.Flag f (.low a) w) :
    ∃ x, belt.low.vertex x = a ∧
      Relation.EqvGen (belt.incidence.Around (.low a)) f (belt.side x) := by
  cases h with
  | @bottom b hb =>
      obtain ⟨x, hx, hvertex⟩ :=
        belt.low.exists_moves belt.ring (Nat.mod_lt (b + 1) belt.low.pos)
      obtain ⟨hbottom, hside⟩ := (Meets.bottom hx).flags
      rw [← hvertex]
      exact ⟨x, rfl,
        .rel _ _ ⟨_, incidence_iff.mpr hside, incidence_iff.mpr hbottom⟩⟩
  | along hx => exact ⟨_, rfl, .refl _⟩
  | up x => exact ⟨x + 1, rfl, around_low x⟩

theorem exists_side_high {c : ℕ} (h : belt.Flag f (.high c) w) :
    ∃ x, belt.high.vertex x = c ∧
      Relation.EqvGen (belt.incidence.Around (.high c)) f (belt.side x) := by
  cases h with
  | top hc hq =>
      obtain ⟨x, hx, rfl⟩ :=
        belt.high.exists_moves (belt.high.ring_of_ne_one hq) hc
      obtain ⟨htop, hside⟩ := (Meets.top hx).flags
      exact ⟨x, rfl, .symm _ _
        (.rel _ _ ⟨_, incidence_iff.mpr htop, incidence_iff.mpr hside⟩)⟩
  | @back x hx => exact ⟨x + 1, rfl, around_high x⟩
  | down x => exact ⟨x, rfl, .refl _⟩

theorem fan {w' : Corner}
    (hf : belt.Flag f v w)
    (hg : belt.Flag g v w') :
    Relation.EqvGen (belt.incidence.Around v) f g := by
  have hside : ∀ {x y}, x ≡ y [MOD p] → belt.side x = belt.side y :=
    belt.side_eq_iff.mpr
  cases v with
  | low a =>
      obtain ⟨x, rfl, hx⟩ := exists_side_low hf
      obtain ⟨y, hvertex, hy⟩ := exists_side_low hg
      have hrungs :=
        belt.low.joined (fun a => belt.incidence.Around (.low a)) hside
          around_low hvertex.symm
      exact (hx.trans _ _ _ hrungs).trans _ _ _ hy.symm
  | high c =>
      obtain ⟨x, rfl, hx⟩ := exists_side_high hf
      obtain ⟨y, hvertex, hy⟩ := exists_side_high hg
      have hrungs :=
        belt.high.joined (fun c => belt.incidence.Around (.high c)) hside
          around_high hvertex.symm
      exact (hx.trans _ _ _ hrungs).trans _ _ _ hy.symm

theorem incidence_polyhedral : belt.incidence.Polyhedral where
  toClosed := incidence_closed
  fan hf hg := fan (incidence_iff.mp hf) (incidence_iff.mp hg)
  shared hf hg hf' hg' := shared (incidence_iff.mp hf) (incidence_iff.mp hg)
    (incidence_iff.mp hf') (incidence_iff.mp hg')

theorem low_mem_tails_iff {a : ℕ} :
    .low a ∈ belt.incidence.tails ↔ a < m := by
  constructor
  · rintro ⟨f, w, h⟩
    obtain ⟨x, rfl, -⟩ := exists_side_low (incidence_iff.mp h)
    exact belt.low.vertex_lt x
  · intro ha
    obtain ⟨x, hx, rfl⟩ := belt.low.exists_moves belt.ring ha
    exact Incidence.mem_tails (incidence_iff.mpr (.along hx))

theorem high_mem_tails_iff {c : ℕ} :
    .high c ∈ belt.incidence.tails ↔ c < q := by
  constructor
  · rintro ⟨f, w, h⟩
    obtain ⟨x, rfl, -⟩ := exists_side_high (incidence_iff.mp h)
    exact belt.high.vertex_lt x
  · intro hc
    obtain ⟨x, rfl⟩ := belt.high.exists_vertex hc
    exact Incidence.mem_tails (incidence_iff.mpr (.down x))

end Belt

end Polyhedra
