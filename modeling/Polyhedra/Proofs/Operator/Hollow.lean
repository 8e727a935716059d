import Mathlib
import Polyhedra.Proofs.Incidence.Count
import Polyhedra.Proofs.Operator.Dual
import Polyhedra.Proofs.Operator.Sites

/-!
# Hollow

A window is cut into every face and the shell gets a thickness.  Three
quadrilaterals stand at every edge of every face: on the outer shell, inside
the window and on the inner shell.
-/

namespace Polyhedra

namespace Incidence

variable {M : Incidence ℕ ℕ}

/-- The quadrilaterals at the edge of the face `i` from `a` to `b`. -/
inductive HollowFlag (M : Incidence ℕ ℕ) : Pattern 12 FaceRole VertexRole
  | rim {i a b} :
      M i a b → HollowFlag M i a b 0 (.outer i a) (.corner a) (.corner b)
  | inward {i a b} :
      M i a b → HollowFlag M i a b 1 (.outer i a) (.corner b) (.window i b)
  | sill {i a b} :
      M i a b → HollowFlag M i a b 2 (.outer i a) (.window i b) (.window i a)
  | outward {i a b} :
      M i a b → HollowFlag M i a b 3 (.outer i a) (.window i a) (.corner a)
  | top {i a b} :
      M i a b → HollowFlag M i a b 4 (.side i a) (.window i a) (.window i b)
  | down {i a b} : M i a b →
      HollowFlag M i a b 5 (.side i a) (.window i b) (.lowerWindow i b)
  | base {i a b} : M i a b →
      HollowFlag M i a b 6 (.side i a) (.lowerWindow i b) (.lowerWindow i a)
  | up {i a b} : M i a b →
      HollowFlag M i a b 7 (.side i a) (.lowerWindow i a) (.window i a)
  | lowerRim {i a b} :
      M i a b → HollowFlag M i a b 8 (.bottom i a) (.lower b) (.lower a)
  | lowerInward {i a b} : M i a b →
      HollowFlag M i a b 9 (.bottom i a) (.lower a) (.lowerWindow i a)
  | lowerSill {i a b} : M i a b →
      HollowFlag M i a b 10 (.bottom i a) (.lowerWindow i a)
        (.lowerWindow i b)
  | lowerOutward {i a b} : M i a b →
      HollowFlag M i a b 11 (.bottom i a) (.lowerWindow i b) (.lower b)

def hollow (M : Incidence ℕ ℕ) : Incidence FaceRole VertexRole :=
  (HollowFlag M).incidence

section Walls

variable (hM : M.Cyclic) {i a b : ℕ} (hab : M i a b) {v w : VertexRole}
include hM hab

theorem hollow_outer_iff :
    hollow M (.outer i a) v w ↔
      (v, w) ∈
        Face.steps [.corner a, .corner b, .window i b, .window i a] := by
  have hhead := @hM.head_unique
  rw [Face.mem_steps_four]
  constructor
  · rintro ⟨_, _, _, _, h⟩
    cases h <;> grind
  · rintro (⟨rfl, rfl⟩ | ⟨rfl, rfl⟩ | ⟨rfl, rfl⟩ | ⟨rfl, rfl⟩)
    exacts [Pattern.mem (.rim hab), Pattern.mem (.inward hab),
      Pattern.mem (.sill hab), Pattern.mem (.outward hab)]

theorem hollow_side_iff :
    hollow M (.side i a) v w ↔
      (v, w) ∈ Face.steps
        [.window i a, .window i b, .lowerWindow i b, .lowerWindow i a] := by
  have hhead := @hM.head_unique
  rw [Face.mem_steps_four]
  constructor
  · rintro ⟨_, _, _, _, h⟩
    cases h <;> grind
  · rintro (⟨rfl, rfl⟩ | ⟨rfl, rfl⟩ | ⟨rfl, rfl⟩ | ⟨rfl, rfl⟩)
    exacts [Pattern.mem (.top hab), Pattern.mem (.down hab),
      Pattern.mem (.base hab), Pattern.mem (.up hab)]

theorem hollow_bottom_iff :
    hollow M (.bottom i a) v w ↔
      (v, w) ∈
        Face.steps
          [.lower b, .lower a, .lowerWindow i a, .lowerWindow i b] := by
  have hhead := @hM.head_unique
  rw [Face.mem_steps_four]
  constructor
  · rintro ⟨_, _, _, _, h⟩
    cases h <;> grind
  · rintro (⟨rfl, rfl⟩ | ⟨rfl, rfl⟩ | ⟨rfl, rfl⟩ | ⟨rfl, rfl⟩)
    exacts [Pattern.mem (.lowerRim hab), Pattern.mem (.lowerInward hab),
      Pattern.mem (.lowerSill hab), Pattern.mem (.lowerOutward hab)]

end Walls

theorem hollow_iff (hM : M.Cyclic) {f : FaceRole} {v w : VertexRole} :
    hollow M f v w ↔
      ∃ i a b, M i a b ∧
        (.outer i a = f ∧ (v, w) ∈
          Face.steps [.corner a, .corner b, .window i b, .window i a] ∨
          .side i a = f ∧ (v, w) ∈ Face.steps
          [.window i a, .window i b, .lowerWindow i b, .lowerWindow i a] ∨
          .bottom i a = f ∧ (v, w) ∈ Face.steps
          [.lower b, .lower a, .lowerWindow i a, .lowerWindow i b]) := by
  constructor
  · rintro ⟨_, _, _, _, h⟩
    obtain ⟨i, a, b, hab, hf⟩ : ∃ i a b, M i a b ∧
        (.outer i a = f ∨ .side i a = f ∨ .bottom i a = f) := by
      cases h with
      | rim hab | inward hab | sill hab | outward hab =>
          exact ⟨_, _, _, hab, .inl rfl⟩
      | top hab | down hab | base hab | up hab =>
          exact ⟨_, _, _, hab, .inr (.inl rfl)⟩
      | lowerRim hab | lowerInward hab | lowerSill hab | lowerOutward hab =>
          exact ⟨_, _, _, hab, .inr (.inr rfl)⟩
    refine ⟨i, a, b, hab, hf.imp ?_ (Or.imp ?_ ?_)⟩
    · rintro rfl
      exact ⟨rfl, (hollow_outer_iff hM hab).mp ⟨_, _, _, _, h⟩⟩
    · rintro rfl
      exact ⟨rfl, (hollow_side_iff hM hab).mp ⟨_, _, _, _, h⟩⟩
    · rintro rfl
      exact ⟨rfl, (hollow_bottom_iff hM hab).mp ⟨_, _, _, _, h⟩⟩
  · rintro ⟨i, a, b, hab, ⟨rfl, hstep⟩ | ⟨rfl, hstep⟩ | ⟨rfl, hstep⟩⟩
    · exact (hollow_outer_iff hM hab).mpr hstep
    · exact (hollow_side_iff hM hab).mpr hstep
    · exact (hollow_bottom_iff hM hab).mpr hstep

/-- Every face is a quadrilateral. -/
theorem hollow_quadrilateral
    (hM : M.Closed)
    {f : FaceRole}
    (hf : f ∈ (hollow M).faces) :
    ∃ keys : List VertexRole, keys ≠ [] ∧ keys.length = 4 ∧ keys.Nodup ∧
      ∀ v w, hollow M f v w ↔ (v, w) ∈ Face.steps keys := by
  obtain ⟨v, w, h⟩ := hf
  obtain ⟨i, a, b, hab, ⟨rfl, -⟩ | ⟨rfl, -⟩ | ⟨rfl, -⟩⟩ :=
    (hollow_iff hM.toCyclic).mp h
  all_goals have hne := hM.ne hab
  · exact ⟨_, by simp, rfl, by grind,
      fun v w => hollow_outer_iff hM.toCyclic hab⟩
  · exact ⟨_, by simp, rfl, by grind,
      fun v w => hollow_side_iff hM.toCyclic hab⟩
  · exact ⟨_, by simp, rfl, by grind,
      fun v w => hollow_bottom_iff hM.toCyclic hab⟩

theorem hollowFlag_fills (hM : M.Closed) : (HollowFlag M).Fills M where
  base h := by cases h <;> assumption
  fill := by
    intro i a b hab place
    fin_cases place
    exacts [⟨_, _, _, .rim hab⟩, ⟨_, _, _, .inward hab⟩,
      ⟨_, _, _, .sill hab⟩, ⟨_, _, _, .outward hab⟩, ⟨_, _, _, .top hab⟩,
      ⟨_, _, _, .down hab⟩, ⟨_, _, _, .base hab⟩, ⟨_, _, _, .up hab⟩,
      ⟨_, _, _, .lowerRim hab⟩, ⟨_, _, _, .lowerInward hab⟩,
      ⟨_, _, _, .lowerSill hab⟩, ⟨_, _, _, .lowerOutward hab⟩]
  unique := by
    intro i a b place f v w f' v' w' h h'
    cases h <;> cases h' <;> exact ⟨rfl, rfl, rfl⟩
  apart := by
    have hhead := @hM.head_unique
    have hne := @hM.ne
    intro i a b place i' a' b' place' f v w h h'
    cases h <;> cases h' <;> grind

/-- The face across every edge of a quadrilateral.  The walls of one shell
meet across the edges of the mesh and at the corners of a face, and a side
stands between the outer and the inner wall at its edge. -/
inductive HollowAcross (M : Incidence ℕ ℕ) :
    FaceRole → VertexRole → FaceRole → Prop
  | rim {i j a b} : M i a b → M j b a →
      HollowAcross M (.outer i a) (.corner a) (.outer j b)
  | inward {i a b c} : M i a b → M i b c →
      HollowAcross M (.outer i a) (.corner b) (.outer i b)
  | sill {i a b} : M i a b →
      HollowAcross M (.outer i a) (.window i b) (.side i a)
  | outward {i z a b} : M i z a → M i a b →
      HollowAcross M (.outer i a) (.window i a) (.outer i z)
  | top {i a b} : M i a b →
      HollowAcross M (.side i a) (.window i a) (.outer i a)
  | down {i a b c} : M i a b → M i b c →
      HollowAcross M (.side i a) (.window i b) (.side i b)
  | base {i a b} : M i a b →
      HollowAcross M (.side i a) (.lowerWindow i b) (.bottom i a)
  | up {i z a b} : M i z a → M i a b →
      HollowAcross M (.side i a) (.lowerWindow i a) (.side i z)
  | lowerRim {i j a b} : M i a b → M j b a →
      HollowAcross M (.bottom i a) (.lower b) (.bottom j b)
  | lowerInward {i z a b} : M i z a → M i a b →
      HollowAcross M (.bottom i a) (.lower a) (.bottom i z)
  | lowerSill {i a b} : M i a b →
      HollowAcross M (.bottom i a) (.lowerWindow i a) (.side i a)
  | lowerOutward {i a b c} : M i a b → M i b c →
      HollowAcross M (.bottom i a) (.lowerWindow i b) (.bottom i b)

theorem exists_hollowAcross
    (hM : M.Closed)
    {f : FaceRole} {v w : VertexRole}
    (h : hollow M f v w) :
    ∃ g, HollowAcross M f v g ∧ hollow M g w v := by
  obtain ⟨i, a, b, place, h⟩ := h
  cases h with
  | rim hab =>
      obtain ⟨j, -, hba⟩ := hM.mate hab
      exact ⟨_, .rim hab hba, Pattern.mem (.rim hba)⟩
  | inward hab =>
      obtain ⟨c, hbc⟩ := hM.next hab
      exact ⟨_, .inward hab hbc, Pattern.mem (.outward hbc)⟩
  | sill hab => exact ⟨_, .sill hab, Pattern.mem (.top hab)⟩
  | outward hab =>
      obtain ⟨z, hza⟩ := hM.prev hab
      exact ⟨_, .outward hza hab, Pattern.mem (.inward hza)⟩
  | top hab => exact ⟨_, .top hab, Pattern.mem (.sill hab)⟩
  | down hab =>
      obtain ⟨c, hbc⟩ := hM.next hab
      exact ⟨_, .down hab hbc, Pattern.mem (.up hbc)⟩
  | base hab => exact ⟨_, .base hab, Pattern.mem (.lowerSill hab)⟩
  | up hab =>
      obtain ⟨z, hza⟩ := hM.prev hab
      exact ⟨_, .up hza hab, Pattern.mem (.down hza)⟩
  | lowerRim hab =>
      obtain ⟨j, -, hba⟩ := hM.mate hab
      exact ⟨_, .lowerRim hab hba, Pattern.mem (.lowerRim hba)⟩
  | lowerInward hab =>
      obtain ⟨z, hza⟩ := hM.prev hab
      exact ⟨_, .lowerInward hza hab, Pattern.mem (.lowerOutward hza)⟩
  | lowerSill hab => exact ⟨_, .lowerSill hab, Pattern.mem (.base hab)⟩
  | lowerOutward hab =>
      obtain ⟨c, hbc⟩ := hM.next hab
      exact ⟨_, .lowerOutward hab hbc, Pattern.mem (.lowerInward hbc)⟩

theorem HollowAcross.ne
    (hM : M.Closed)
    {f g : FaceRole} {v : VertexRole}
    (h : HollowAcross M f v g) : g ≠ f := by
  rintro rfl
  cases h with
  | rim hab hba | lowerRim hab hba => exact hM.ne hab rfl
  | inward hab _ | down hab _ | lowerOutward hab _ => exact hM.ne hab rfl
  | outward hza _ | up hza _ | lowerInward hza _ => exact hM.ne hza rfl

/-- Different edges of a face have different faces across: the next wall of a
face, the one before it and the one of the neighbour stand at other edges. -/
theorem HollowAcross.unique
    (hM : M.Closed)
    {f g : FaceRole}
    {v v' : VertexRole}
    (h : HollowAcross M f v g)
    (h' : HollowAcross M f v' g) : v = v' := by
  have hhead := @hM.head_unique
  have hlong := @hM.long
  have hmate := @hM.mate_ne
  cases h <;> cases h' <;> grind

theorem hollow_closed (hM : M.Closed) : (hollow M).Closed := by
  have htail := @hM.tail_unique
  have howner := @hM.owner_unique
  have hlong := @hM.long
  have hcyclic : (hollow M).Cyclic := by
    refine Cyclic.of_isCycle fun f v w h => ?_
    obtain ⟨keys, -, -, hnodup, hsteps⟩ :=
      hollow_quadrilateral hM (mem_faces h)
    exact isCycle_of_steps hnodup hsteps
  refine hcyclic.closed_of_across ?_ (exists_hollowAcross hM)
    fun h => h.ne hM
  rintro f g v w ⟨i, a, b, place, h⟩ ⟨i', a', b', place', h'⟩
  cases h <;> cases h' <;> grind

/-! ### Around the vertices -/

/-- Around a vertex of the outer shell every face has two walls. -/
theorem hollow_fan_corner
    (hM : M.Polyhedral)
    {b : ℕ} {f g : FaceRole} {v w : VertexRole}
    (hf : hollow M f (.corner b) v)
    (hg : hollow M g (.corner b) w) :
    Relation.EqvGen ((hollow M).Around (.corner b)) f g := by
  apply hM.fan_of_walls b .outer _ _ _ hf hg
  · intro i a c hab hbc
    exact .symm _ _
      (.rel _ _ ⟨_, Pattern.mem (.inward hab), Pattern.mem (.outward hbc)⟩)
  · intro i j c hi hj
    exact .rel _ _ ⟨_, Pattern.mem (.rim hj), Pattern.mem (.rim hi)⟩
  · rintro f w ⟨_, _, _, _, h⟩
    cases h with
    | rim hbc => exact ⟨_, _, hbc, .inl rfl⟩
    | inward hab =>
        obtain ⟨c, hbc⟩ := hM.next hab
        exact ⟨_, c, hbc, .inr ⟨_, hab, rfl⟩⟩

/-- Around a vertex of the inner shell every face has two walls. -/
theorem hollow_fan_lower
    (hM : M.Polyhedral)
    {b : ℕ} {f g : FaceRole} {v w : VertexRole}
    (hf : hollow M f (.lower b) v)
    (hg : hollow M g (.lower b) w) :
    Relation.EqvGen ((hollow M).Around (.lower b)) f g := by
  apply hM.fan_of_walls b .bottom _ _ _ hf hg
  · intro i a c hab hbc
    exact .rel _ _
      ⟨_, Pattern.mem (.lowerInward hbc), Pattern.mem (.lowerOutward hab)⟩
  · intro i j c hi hj
    exact .symm _ _
      (.rel _ _ ⟨_, Pattern.mem (.lowerRim hi), Pattern.mem (.lowerRim hj)⟩)
  · rintro f w ⟨_, _, _, _, h⟩
    cases h with
    | lowerRim hab =>
        obtain ⟨c, hbc⟩ := hM.next hab
        exact ⟨_, c, hbc, .inr ⟨_, hab, rfl⟩⟩
    | lowerInward hbc => exact ⟨_, _, hbc, .inl rfl⟩

/-- At a corner of a window there are four walls. -/
theorem hollow_fan_window
    (hM : M.Closed)
    {i b : ℕ} {f g : FaceRole} {v w : VertexRole}
    (hf : hollow M f (.window i b) v)
    (hg : hollow M g (.window i b) w) :
    Relation.EqvGen ((hollow M).Around (.window i b)) f g := by
  obtain ⟨a, c, hab, hbc⟩ : ∃ a c, M i a b ∧ M i b c := by
    obtain ⟨_, _, _, _, hf⟩ := hf
    cases hf with
    | sill hab | down hab =>
        exact ⟨_, (hM.next hab).choose, hab, (hM.next hab).choose_spec⟩
    | outward hbc | top hbc =>
        exact ⟨(hM.prev hbc).choose, _, (hM.prev hbc).choose_spec, hbc⟩
  have hbefore : Relation.EqvGen ((hollow M).Around (.window i b))
      (.outer i a) (.side i a) :=
    .symm _ _ (.rel _ _ ⟨_, Pattern.mem (.sill hab), Pattern.mem (.top hab)⟩)
  have hafter : Relation.EqvGen ((hollow M).Around (.window i b)) (.side i b)
      (.outer i b) :=
    .symm _ _ (.rel _ _ ⟨_, Pattern.mem (.top hbc), Pattern.mem (.sill hbc)⟩)
  have hside : Relation.EqvGen ((hollow M).Around (.window i b)) (.side i b)
      (.side i a) :=
    .rel _ _ ⟨_, Pattern.mem (.down hab), Pattern.mem (.up hbc)⟩
  have hcommon : ∀ {f v}, hollow M f (.window i b) v →
      Relation.EqvGen ((hollow M).Around (.window i b)) f (.side i a) := by
    rintro f v ⟨_, _, _, _, hf⟩
    cases hf with
    | sill h =>
        rw [hM.tail_unique h hab]
        exact hbefore
    | down h =>
        rw [hM.tail_unique h hab]
        exact .refl _
    | outward _ => exact hafter.symm.trans _ _ _ hside
    | top _ => exact hside
  exact eqvGen_of_common (hcommon hf) (hcommon hg)

/-- At a lower corner of a window there are four walls. -/
theorem hollow_fan_lowerWindow
    (hM : M.Closed)
    {i b : ℕ} {f g : FaceRole} {v w : VertexRole}
    (hf : hollow M f (.lowerWindow i b) v)
    (hg : hollow M g (.lowerWindow i b) w) :
    Relation.EqvGen ((hollow M).Around (.lowerWindow i b)) f g := by
  obtain ⟨a, c, hab, hbc⟩ : ∃ a c, M i a b ∧ M i b c := by
    obtain ⟨_, _, _, _, hf⟩ := hf
    cases hf with
    | base hab | lowerOutward hab =>
        exact ⟨_, (hM.next hab).choose, hab, (hM.next hab).choose_spec⟩
    | up hbc | lowerSill hbc =>
        exact ⟨(hM.prev hbc).choose, _, (hM.prev hbc).choose_spec, hbc⟩
  have hbefore : Relation.EqvGen ((hollow M).Around (.lowerWindow i b))
      (.bottom i a) (.side i a) :=
    .rel _ _ ⟨_, Pattern.mem (.base hab), Pattern.mem (.lowerSill hab)⟩
  have hafter : Relation.EqvGen ((hollow M).Around (.lowerWindow i b))
      (.bottom i b) (.side i b) :=
    .symm _ _
      (.rel _ _ ⟨_, Pattern.mem (.lowerSill hbc), Pattern.mem (.base hbc)⟩)
  have hside : Relation.EqvGen ((hollow M).Around (.lowerWindow i b))
      (.side i b) (.side i a) :=
    .symm _ _ (.rel _ _ ⟨_, Pattern.mem (.up hbc), Pattern.mem (.down hab)⟩)
  have hcommon : ∀ {f v}, hollow M f (.lowerWindow i b) v →
      Relation.EqvGen ((hollow M).Around (.lowerWindow i b)) f
        (.side i a) := by
    rintro f v ⟨_, _, _, _, hf⟩
    cases hf with
    | base h =>
        rw [hM.tail_unique h hab]
        exact .refl _
    | lowerOutward h =>
        rw [hM.tail_unique h hab]
        exact hbefore
    | up _ => exact hside
    | lowerSill _ => exact hafter.trans _ _ _ hside
  exact eqvGen_of_common (hcommon hf) (hcommon hg)

theorem hollow_polyhedral (hM : M.Polyhedral) : (hollow M).Polyhedral where
  toClosed := hollow_closed hM.toClosed
  fan {f g v} := by
    intro w w' hf hg
    cases v with
    | corner b => exact hollow_fan_corner hM hf hg
    | lower b => exact hollow_fan_lower hM hf hg
    | window i b => exact hollow_fan_window hM.toClosed hf hg
    | lowerWindow i b => exact hollow_fan_lowerWindow hM.toClosed hf hg
    | _ =>
        obtain ⟨_, _, _, _, hf⟩ := hf
        cases hf
  shared := (hollow_closed hM.toClosed).shared_of_across
    (exists_hollowAcross hM.toClosed) fun h => h.unique hM.toClosed

/-! ### Counts -/

/-- The corners on the two shells at some vertices, and those of the
windows. -/
def hollowRoles (M : Incidence ℕ ℕ) (vertices : Set ℕ) : Set VertexRole :=
  VertexRole.corner '' vertices ∪ (VertexRole.lower '' vertices ∪
    ((fun flag => VertexRole.window flag.1 flag.2.1) '' M.flags ∪
      (fun flag => VertexRole.lowerWindow flag.1 flag.2.1) '' M.flags))

theorem hollowRoles_mono {vertices others : Set ℕ} (h : vertices ⊆ others) :
    hollowRoles M vertices ⊆ hollowRoles M others :=
  Set.union_subset_union (Set.image_mono h)
    (Set.union_subset_union_left _ (Set.image_mono h))

theorem tails_hollow (hM : M.Closed) :
    (hollow M).tails = hollowRoles M M.tails := by
  ext v
  constructor
  · rintro ⟨f, w, i, a, b, place, h⟩
    have hflag : ∀ {i a b}, M i a b →
        ∃ flag ∈ M.flags, flag.1 = i ∧ flag.2.1 = b := by
      intro i a b hab
      obtain ⟨c, hbc⟩ := hM.next hab
      exact ⟨(i, b, c), hbc, rfl, rfl⟩
    cases h with
    | rim hab => exact .inl ⟨a, mem_tails hab, rfl⟩
    | inward hab => exact .inl ⟨b, hM.head_mem_tails hab, rfl⟩
    | sill hab | down hab =>
        obtain ⟨flag, hflag, rfl, rfl⟩ := hflag hab
        exact .inr (.inr (.inl ⟨flag, hflag, rfl⟩))
    | outward hab | top hab => exact .inr (.inr (.inl ⟨(i, a, b), hab, rfl⟩))
    | base hab | lowerOutward hab =>
        obtain ⟨flag, hflag, rfl, rfl⟩ := hflag hab
        exact .inr (.inr (.inr ⟨flag, hflag, rfl⟩))
    | up hab | lowerSill hab =>
        exact .inr (.inr (.inr ⟨(i, a, b), hab, rfl⟩))
    | lowerRim hab => exact .inr (.inl ⟨b, hM.head_mem_tails hab, rfl⟩)
    | lowerInward hab => exact .inr (.inl ⟨a, mem_tails hab, rfl⟩)
  · rintro (⟨a, ⟨i, b, hab⟩, rfl⟩ | ⟨a, ⟨i, b, hab⟩, rfl⟩ |
      ⟨⟨i, a, b⟩, hab, rfl⟩ | ⟨⟨i, a, b⟩, hab, rfl⟩)
    · exact ⟨_, _, Pattern.mem (.rim hab)⟩
    · exact ⟨_, _, Pattern.mem (.lowerInward hab)⟩
    · exact ⟨_, _, Pattern.mem (.top hab)⟩
    · exact ⟨_, _, Pattern.mem (.up hab)⟩

theorem faces_hollow : (hollow M).faces =
    (fun flag => FaceRole.outer flag.1 flag.2.1) '' M.flags ∪
      ((fun flag => FaceRole.side flag.1 flag.2.1) '' M.flags ∪
        (fun flag => FaceRole.bottom flag.1 flag.2.1) '' M.flags) := by
  ext f
  constructor
  · rintro ⟨v, w, i, a, b, place, h⟩
    cases h with
    | rim hab | inward hab | sill hab | outward hab =>
        exact .inl ⟨(i, a, b), hab, rfl⟩
    | top hab | down hab | base hab | up hab =>
        exact .inr (.inl ⟨(i, a, b), hab, rfl⟩)
    | lowerRim hab | lowerInward hab | lowerSill hab | lowerOutward hab =>
        exact .inr (.inr ⟨(i, a, b), hab, rfl⟩)
  · rintro (⟨⟨i, a, b⟩, hab, rfl⟩ | ⟨⟨i, a, b⟩, hab, rfl⟩ |
      ⟨⟨i, a, b⟩, hab, rfl⟩)
    · exact ⟨_, _, Pattern.mem (.rim hab)⟩
    · exact ⟨_, _, Pattern.mem (.top hab)⟩
    · exact ⟨_, _, Pattern.mem (.lowerRim hab)⟩

theorem ncard_hollowRoles
    (hM : M.Cyclic)
    (hfinite : M.flags.Finite)
    {vertices : Set ℕ}
    (hvertices : vertices.Finite) :
    (hollowRoles M vertices).ncard =
      2 * vertices.ncard + 2 * M.flags.ncard := by
  rw [hollowRoles, ncard_image_union hvertices ((hvertices.image _).union
      ((hfinite.image _).union (hfinite.image _))),
    ncard_image_union hvertices ((hfinite.image _).union (hfinite.image _)),
    ncard_image_union hfinite (hfinite.image _) (hM.injOn_corner _),
    (hM.injOn_corner _).ncard_image]
  · omega
  all_goals grind [Set.InjOn]

theorem ncard_faces_hollow
    (hM : M.Cyclic)
    (hfinite : M.flags.Finite) :
    (hollow M).faces.ncard = 3 * M.flags.ncard := by
  rw [faces_hollow, ncard_image_union hfinite
      ((hfinite.image _).union (hfinite.image _)) (hM.injOn_corner _),
    ncard_image_union hfinite (hfinite.image _) (hM.injOn_corner _),
    (hM.injOn_corner _).ncard_image]
  · omega
  all_goals grind [Set.InjOn]

/-- Every window opens a hole in the doubled surface. -/
theorem doubleEuler_hollow
    (hM : M.Closed)
    (hfinite : M.flags.Finite) :
    (hollow M).doubleEuler = 2 * M.doubleEuler - 4 * M.faces.ncard := by
  have hflags : (hollow M).flags.ncard = 12 * M.flags.ncard :=
    (hollowFlag_fills hM).ncard_flags
  unfold doubleEuler
  rw [tails_hollow hM,
    ncard_hollowRoles hM.toCyclic hfinite (finite_tails hfinite),
    ncard_faces_hollow hM.toCyclic hfinite, hflags]
  push_cast
  ring

end Incidence

theorem Surface.mem_hollowFlags_iff {surface : Surface}
    (hsimple : ∀ face ∈ surface, face.Nodup)
    {f : FaceRole} {v w : VertexRole} :
    ⟨f, v, w⟩ ∈ surface.hollowFlags ↔
      Incidence.hollow surface.incidence f v w := by
  simp only [Incidence.hollow_iff (cyclic_of_nodup hsimple), hollowFlags,
    List.mem_flatMap, List.mem_append, Prod.exists, mem_indexed_iff,
    Flag.mem_around_iff, or_assoc]
  constructor
  · rintro ⟨face, i, hface, a, b, harrival, h⟩
    exact ⟨i, a, b, exists_arrival_iff.mp ⟨face, hface, harrival⟩, h⟩
  · rintro ⟨i, a, b, hab, h⟩
    obtain ⟨face, hface, harrival⟩ := exists_arrival_iff.mpr hab
    exact ⟨face, i, hface, a, b, harrival, h⟩

namespace Mesh

variable {mesh : Mesh}

/-- Every vertex has a direction when there are as many directions as
vertices. -/
theorem mem_shellSites_iff {directions : List Point} (thickness : Float)
    (hlength : directions.length = mesh.vertexCount) {role : VertexRole} :
    role ∈ (mesh.shellSites directions thickness).map Prod.fst ↔
      ∃ v < mesh.vertexCount, .corner v = role ∨ .lower v = role := by
  have hindices :
      ((mesh.vertices.toList.zip directions).zipIdx).map Prod.snd =
        List.range mesh.vertexCount := by
    rw [List.zipIdx_map_snd, List.range_eq_range', List.length_zip, hlength,
      Array.length_toList]
    unfold vertexCount
    rw [Nat.min_self]
  have hkeys : (mesh.shellSites directions thickness).map Prod.fst =
      (List.range mesh.vertexCount).flatMap fun v =>
        [VertexRole.corner v, .lower v] := by
    rw [← hindices, shellSites, List.map_flatMap, List.flatMap_map]
    rfl
  rw [hkeys]
  simp only [List.mem_flatMap, List.mem_range, List.mem_cons,
    List.not_mem_nil, or_false]
  grind

theorem mem_windowSites_iff {fraction thickness : Float}
    {role : VertexRole} :
    role ∈ (mesh.windowSites fraction thickness).map Prod.fst ↔
      ∃ flag ∈ mesh.faces.incidence.flags, .window flag.1 flag.2.1 = role ∨
        .lowerWindow flag.1 flag.2.1 = role := by
  simp only [windowSites, List.mem_map, List.mem_flatMap, Prod.exists,
    Surface.mem_indexed_iff, List.mem_cons, Prod.mk.injEq, List.not_mem_nil,
    or_false]
  constructor
  · rintro ⟨_, _, ⟨face, i, hface, v, hv, hsite⟩, rfl⟩
    obtain ⟨w, hvw⟩ := Surface.exists_incidence_iff.mpr ⟨face, hface, hv⟩
    exact ⟨i, v, w, hvw, hsite.imp (fun h => h.1.symm) fun h => h.1.symm⟩
  · rintro ⟨i, v, w, hvw, hrole⟩
    obtain ⟨face, hface, hv⟩ := Surface.exists_incidence_iff.mp ⟨w, hvw⟩
    rcases hrole with rfl | rfl
    · exact ⟨_, _, ⟨face, i, hface, v, hv, .inl ⟨rfl, rfl⟩⟩, rfl⟩
    · exact ⟨_, _, ⟨face, i, hface, v, hv, .inr ⟨rfl, rfl⟩⟩, rfl⟩

theorem size_foldl {α β : Type} {step : Array α → β → Array α}
    (hstep : ∀ sums x, (step sums x).size = sums.size)
    (list : List β) (sums : Array α) :
    (list.foldl step sums).size = sums.size := by
  induction list generalizing sums with
  | nil => rfl
  | cons x rest ih => rw [List.foldl_cons, ih, hstep]

theorem length_vertexNormals (mesh : Mesh) :
    mesh.vertexNormals.length = mesh.vertexCount := by
  unfold vertexNormals normalSums
  rw [List.length_map, Array.length_toList, size_foldl, Array.size_replicate]
  intro sums entry
  exact size_foldl (fun sums v => Array.size_modify) entry.1 sums

theorem length_shellDirections (mesh dual : Mesh) :
    (mesh.shellDirections dual).length = mesh.vertexCount := by
  unfold shellDirections
  split
  next hcount => rw [length_normals, hcount]
  next => exact length_vertexNormals mesh

theorem mem_hollowSites_iff {dual : Mesh} {fraction thickness : Float}
    {role : VertexRole} :
    role ∈
        (mesh.shellSites (mesh.shellDirections dual) thickness ++
          mesh.windowSites fraction thickness).map Prod.fst ↔
      role ∈
        Incidence.hollowRoles mesh.faces.incidence
          {v | v < mesh.vertexCount} := by
  rw [List.map_append, List.mem_append,
    mem_shellSites_iff thickness (length_shellDirections mesh dual),
    mem_windowSites_iff]
  simp only [Incidence.hollowRoles, Set.mem_union, Set.mem_image,
    Set.mem_ofPred_eq]
  grind

/-- Hollow keeps a mesh polyhedral; every window is a hole through the
doubled surface. -/
theorem Polyhedral.hollow
    (h : mesh.Polyhedral)
    (hfits : mesh.Fits)
    (fraction thickness : Float) :
    ∃ out, mesh.hollow fraction thickness = .ok out ∧ out.Polyhedral ∧
      out.eulerCharacteristic =
        2 * mesh.eulerCharacteristic - 2 * mesh.faceCount := by
  have hpoly := h.incidence
  obtain ⟨dual, hdual, -, -⟩ := h.dual hfits
  have hsites : ∀ role, role ∈
        (mesh.shellSites (mesh.shellDirections dual) thickness ++
          mesh.windowSites fraction thickness).map Prod.fst ↔
      role ∈ (Incidence.hollow mesh.faces.incidence).tails := by
    intro role
    rw [Incidence.tails_hollow hpoly.toClosed, h.tails_eq]
    exact mem_hollowSites_iff
  obtain ⟨out, hout, houtPoly, hdouble⟩ :=
    Blueprint.exists_polyhedral_buildLabelled
      (Incidence.hollow_polyhedral hpoly) (fun _ _ _ =>
        Surface.mem_hollowFlags_iff h.simple) hsites ("H" ++ mesh.name)
  have hfaceCount : mesh.faces.incidence.faces.ncard = mesh.faceCount := by
    rw [h.faces_eq]
    exact Set.ncard_Iio_nat _
  refine ⟨out, ?_, houtPoly, ?_⟩
  · unfold Mesh.hollow
    rw [requireInRange_bind h.inRange, hdual]
    exact hout
  · rw [Incidence.doubleEuler_hollow hpoly.toClosed Surface.finite_flags,
      ← h.two_mul_eulerCharacteristic, hfaceCount] at hdouble
    omega

end Mesh
end Polyhedra
