import Mathlib
import Polyhedra.Proofs.Incidence.Count
import Polyhedra.Proofs.Operator.Sites

/-!
# Whirl

Every face keeps a turned copy through new points inside it, and every corner
of it gets a hexagon between the copy and the edges.
-/

namespace Polyhedra

namespace Incidence

variable {M : Incidence ℕ ℕ}

/-- The hexagon of the face `i` at its corner `b`, where `a` comes before `b`
and `c` after it, and the copy of the face. -/
inductive WhirlFlag (M : Incidence ℕ ℕ) : Pattern 7 FaceRole VertexRole
  | depart {i a b} :
      M i a b → WhirlFlag M i a b 0 (.ring i a) (.inner i a) (.third a b)
  | cross {i a b} :
      M i a b → WhirlFlag M i a b 1 (.ring i a) (.third a b) (.third b a)
  | approach {i a b} :
      M i a b → WhirlFlag M i a b 2 (.ring i a) (.third b a) (.corner b)
  | leave {i a b c} : M i a b → M i b c →
      WhirlFlag M i a b 3 (.ring i a) (.corner b) (.third b c)
  | enter {i a b c} : M i a b → M i b c →
      WhirlFlag M i a b 4 (.ring i a) (.third b c) (.inner i b)
  | back {i a b} :
      M i a b → WhirlFlag M i a b 5 (.ring i a) (.inner i b) (.inner i a)
  | turn {i a b} :
      M i a b → WhirlFlag M i a b 6 (.copy i) (.inner i a) (.inner i b)

def whirl (M : Incidence ℕ ℕ) : Incidence FaceRole VertexRole :=
  (WhirlFlag M).incidence

theorem whirl_copy_iff {i : ℕ} {v w : VertexRole} :
    whirl M (.copy i) v w ↔
      ∃ a b, M i a b ∧ .inner i a = v ∧ .inner i b = w := by
  constructor
  · rintro ⟨_, _, _, _, h⟩
    cases h with
    | turn hab => exact ⟨_, _, hab, rfl, rfl⟩
  · rintro ⟨a, b, hab, rfl, rfl⟩
    exact Pattern.mem (.turn hab)

theorem whirl_ring_iff
    (hM : M.Cyclic)
    {i a b c : ℕ}
    (hab : M i a b)
    (hbc : M i b c)
    {v w : VertexRole} :
    whirl M (.ring i a) v w ↔
      (v, w) ∈ Face.steps
        [.inner i a, .third a b, .third b a, .corner b, .third b c,
          .inner i b] := by
  have hhead := @hM.head_unique
  rw [Face.mem_steps_six]
  constructor
  · rintro ⟨_, _, _, _, h⟩
    cases h <;> grind
  · rintro (⟨rfl, rfl⟩ | ⟨rfl, rfl⟩ | ⟨rfl, rfl⟩ | ⟨rfl, rfl⟩ | ⟨rfl, rfl⟩ |
      ⟨rfl, rfl⟩)
    exacts [Pattern.mem (.depart hab), Pattern.mem (.cross hab),
      Pattern.mem (.approach hab), Pattern.mem (.leave hab hbc),
      Pattern.mem (.enter hab hbc), Pattern.mem (.back hab)]

theorem whirl_iff (hM : M.Cyclic) {f : FaceRole} {v w : VertexRole} :
    whirl M f v w ↔
      ∃ i a b c, M i a b ∧ M i b c ∧
        (.ring i a = f ∧ (v, w) ∈ Face.steps [.inner i a, .third a b,
          .third b a, .corner b, .third b c, .inner i b] ∨
          .copy i = f ∧ .inner i a = v ∧ .inner i b = w) := by
  constructor
  · rintro ⟨i, a, b, _, h⟩
    have hbase : M i a b ∧
        (.ring i a = f ∨ .copy i = f ∧ .inner i a = v ∧ .inner i b = w) := by
      cases h with
      | turn hab => exact ⟨hab, .inr ⟨rfl, rfl, rfl⟩⟩
      | depart hab | cross hab | approach hab | leave hab _ | enter hab _
      | back hab =>
          exact ⟨hab, .inl rfl⟩
    obtain ⟨hab, hf⟩ := hbase
    obtain ⟨c, hbc⟩ := hM.next hab
    refine ⟨i, a, b, c, hab, hbc, hf.imp_left ?_⟩
    rintro rfl
    exact ⟨rfl, (whirl_ring_iff hM hab hbc).mp ⟨_, _, _, _, h⟩⟩
  · rintro ⟨i, a, b, c, hab, hbc, ⟨rfl, hstep⟩ | ⟨rfl, rfl, rfl⟩⟩
    · exact (whirl_ring_iff hM hab hbc).mpr hstep
    · exact whirl_copy_iff.mpr ⟨a, b, hab, rfl, rfl⟩

theorem whirlFlag_fills (hM : M.Closed) : (WhirlFlag M).Fills M where
  base h := by cases h <;> assumption
  fill := by
    intro i a b hab place
    obtain ⟨c, hbc⟩ := hM.next hab
    fin_cases place
    exacts [⟨_, _, _, .depart hab⟩, ⟨_, _, _, .cross hab⟩,
      ⟨_, _, _, .approach hab⟩, ⟨_, _, _, .leave hab hbc⟩,
      ⟨_, _, _, .enter hab hbc⟩, ⟨_, _, _, .back hab⟩, ⟨_, _, _, .turn hab⟩]
  unique := by
    have hhead := @hM.head_unique
    intro i a b place f v w f' v' w' h h'
    cases h <;> cases h' <;> grind
  apart := by
    have hhead := @hM.head_unique
    have hne := @hM.ne
    have hlong := @hM.long
    intro i a b place i' a' b' place' f v w h h'
    cases h <;> cases h' <;> grind

/-- The face across every edge of a hexagon and of a copy.  Inside a face
there are its copy and the hexagons before and after; the other three edges
of a hexagon lie on edges of `M` and lead to the faces across these. -/
inductive WhirlAcross (M : Incidence ℕ ℕ) :
    FaceRole → VertexRole → FaceRole → Prop
  | depart {i z a b} : M i z a → M i a b →
      WhirlAcross M (.ring i a) (.inner i a) (.ring i z)
  | cross {i j a b} : M i a b → M j b a →
      WhirlAcross M (.ring i a) (.third a b) (.ring j b)
  | approach {i j z a b} : M i a b → M j z b → M j b a →
      WhirlAcross M (.ring i a) (.third b a) (.ring j z)
  | leave {i j a b c} : M i a b → M i b c → M j c b →
      WhirlAcross M (.ring i a) (.corner b) (.ring j c)
  | enter {i a b c} : M i a b → M i b c →
      WhirlAcross M (.ring i a) (.third b c) (.ring i b)
  | back {i a b} : M i a b → WhirlAcross M (.ring i a) (.inner i b) (.copy i)
  | turn {i a b} : M i a b → WhirlAcross M (.copy i) (.inner i a) (.ring i a)

theorem exists_whirlAcross
    (hM : M.Closed)
    {f : FaceRole} {v w : VertexRole}
    (h : whirl M f v w) : ∃ g, WhirlAcross M f v g ∧ whirl M g w v := by
  obtain ⟨i, a, b, place, h⟩ := h
  cases h with
  | depart hab =>
      obtain ⟨z, hza⟩ := hM.prev hab
      exact ⟨_, .depart hza hab, Pattern.mem (.enter hza hab)⟩
  | cross hab =>
      obtain ⟨j, -, hba⟩ := hM.mate hab
      exact ⟨_, .cross hab hba, Pattern.mem (.cross hba)⟩
  | approach hab =>
      obtain ⟨j, -, hba⟩ := hM.mate hab
      obtain ⟨z, hzb⟩ := hM.prev hba
      exact ⟨_, .approach hab hzb hba, Pattern.mem (.leave hzb hba)⟩
  | leave hab hbc =>
      obtain ⟨j, -, hcb⟩ := hM.mate hbc
      exact ⟨_, .leave hab hbc hcb, Pattern.mem (.approach hcb)⟩
  | enter hab hbc => exact ⟨_, .enter hab hbc, Pattern.mem (.depart hbc)⟩
  | back hab => exact ⟨_, .back hab, Pattern.mem (.turn hab)⟩
  | turn hab => exact ⟨_, .turn hab, Pattern.mem (.back hab)⟩

theorem WhirlAcross.ne
    (hM : M.Closed)
    {f g : FaceRole} {v : VertexRole}
    (h : WhirlAcross M f v g) : g ≠ f := by
  rintro rfl
  cases h with
  | depart hza _ => exact hM.ne hza rfl
  | cross hab _ | enter hab _ => exact hM.ne hab rfl
  | approach hab _ hba => exact hM.mate_ne hab hba rfl
  | leave _ hbc hcb => exact hM.mate_ne hbc hcb rfl

/-- Different edges of a face have different faces across. -/
theorem WhirlAcross.unique
    (hM : M.Polyhedral)
    {f g : FaceRole}
    {v v' : VertexRole}
    (h : WhirlAcross M f v g)
    (h' : WhirlAcross M f v' g) : v = v' := by
  have hhead := @hM.head_unique
  have hne := @hM.ne
  have hlong := @hM.long
  -- what lies across an edge of `M` is not in the same face
  have hmate := @hM.mate_ne
  cases h with
  | approach hab hzb hba =>
      cases h' with
      | leave hab' hbc hcb =>
          -- one face across the edges before and after the corner `b`
          obtain rfl := hhead hab hab'
          exact absurd hba (hM.degree hab hbc hcb)
      | _ => grind
  | leave hab hbc hcb =>
      cases h' with
      | approach hab' hzb hba =>
          obtain rfl := hhead hab hab'
          exact absurd hba (hM.degree hab hbc hcb)
      | _ => grind
  | depart | cross | enter | back | turn => cases h' <;> grind

theorem whirl_closed (hM : M.Closed) : (whirl M).Closed := by
  have hhead := @hM.head_unique
  have htail := @hM.tail_unique
  have howner := @hM.owner_unique
  have hne := @hM.ne
  have hlong := @hM.long
  have hcyclic : (whirl M).Cyclic := by
    refine Cyclic.of_isCycle fun f v w h => ?_
    obtain ⟨i, a, b, c, hab, hbc, ⟨rfl, -⟩ | ⟨rfl, -⟩⟩ :=
      (whirl_iff hM.toCyclic).mp h
    · refine isCycle_of_steps ?_ fun v w =>
        whirl_ring_iff hM.toCyclic hab hbc
      grind
    · apply (hM.isCycle i).transport fun a v => .inner i a = v
      · intro v w
        rw [whirl_copy_iff]
      · exact fun a b hab => ⟨_, rfl⟩
      · grind
      · grind
  refine hcyclic.closed_of_across ?_ (exists_whirlAcross hM)
    fun h => h.ne hM
  rintro f g v w ⟨i, a, b, place, h⟩ ⟨i', a', b', place', h'⟩
  cases h <;> cases h' <;> grind

/-- The hexagons around an input vertex follow the faces around it. -/
theorem whirl_fan_corner
    (hM : M.Polyhedral)
    {b : ℕ} {f g : FaceRole} {v w : VertexRole}
    (hf : whirl M f (.corner b) v)
    (hg : whirl M g (.corner b) w) :
    Relation.EqvGen ((whirl M).Around (.corner b)) f g := by
  apply hM.fan_of_arrivals b .ring _ _ hf hg
  · intro i j u w hu hj hi
    exact .rel _ _
      ⟨_, Pattern.mem (.leave hu hj), Pattern.mem (.approach hi)⟩
  · rintro f w ⟨_, _, _, _, h⟩
    cases h with
    | leave hab hbc => exact ⟨_, _, _, hab, hbc, rfl⟩

/-- At a point on an edge there are three hexagons. -/
theorem whirl_fan_third
    (hM : M.Closed)
    {a b : ℕ} {f g : FaceRole} {v w : VertexRole}
    (hf : whirl M f (.third a b) v)
    (hg : whirl M g (.third a b) w) :
    Relation.EqvGen ((whirl M).Around (.third a b)) f g := by
  obtain ⟨i, hab⟩ : ∃ i, M i a b := by
    obtain ⟨_, _, _, _, hf⟩ := hf
    cases hf with
    | cross hab | enter _ hab => exact ⟨_, hab⟩
    | approach hba => exact (hM.mate hba).imp fun _ h => h.2
  have hcommon : ∀ {f v}, whirl M f (.third a b) v →
      Relation.EqvGen ((whirl M).Around (.third a b)) f (.ring i a) := by
    rintro f v ⟨_, _, _, _, hf⟩
    cases hf with
    | cross h =>
        rw [hM.owner_unique h hab]
        exact .refl _
    | approach hba =>
        exact .rel _ _
          ⟨_, Pattern.mem (.cross hab), Pattern.mem (.cross hba)⟩
    | enter hza h =>
        obtain rfl := hM.owner_unique h hab
        exact .symm _ _ (.rel _ _
          ⟨_, Pattern.mem (.enter hza hab), Pattern.mem (.depart hab)⟩)
  exact eqvGen_of_common (hcommon hf) (hcommon hg)

/-- At a point inside a face there are its copy and two hexagons. -/
theorem whirl_fan_inner
    (hM : M.Closed)
    {i a : ℕ} {f g : FaceRole} {v w : VertexRole}
    (hf : whirl M f (.inner i a) v)
    (hg : whirl M g (.inner i a) w) :
    Relation.EqvGen ((whirl M).Around (.inner i a)) f g := by
  obtain ⟨z, hza⟩ : ∃ z, M i z a := by
    obtain ⟨_, _, _, _, hf⟩ := hf
    cases hf with
    | depart hab | turn hab => exact hM.prev hab
    | back hza => exact ⟨_, hza⟩
  have hcommon : ∀ {f v}, whirl M f (.inner i a) v →
      Relation.EqvGen ((whirl M).Around (.inner i a)) f (.ring i z) := by
    rintro f v ⟨_, _, _, _, hf⟩
    cases hf with
    | depart hab =>
        exact .symm _ _ (.rel _ _
          ⟨_, Pattern.mem (.depart hab), Pattern.mem (.enter hza hab)⟩)
    | back h =>
        rw [hM.tail_unique h hza]
        exact .refl _
    | turn _ =>
        exact .rel _ _ ⟨_, Pattern.mem (.back hza), Pattern.mem (.turn hza)⟩
  exact eqvGen_of_common (hcommon hf) (hcommon hg)

theorem whirl_polyhedral (hM : M.Polyhedral) : (whirl M).Polyhedral where
  toClosed := whirl_closed hM.toClosed
  fan {f g v} := by
    intro w w' hf hg
    cases v with
    | third a b => exact whirl_fan_third hM.toClosed hf hg
    | corner b => exact whirl_fan_corner hM hf hg
    | inner i a => exact whirl_fan_inner hM.toClosed hf hg
    | _ =>
        obtain ⟨_, _, _, _, hf⟩ := hf
        cases hf
  shared := (whirl_closed hM.toClosed).shared_of_across
    (exists_whirlAcross hM.toClosed) fun h => h.unique hM

/-! ### Counts -/

theorem tails_whirl (hM : M.Closed) :
    (whirl M).tails =
      VertexRole.corner '' M.tails ∪
      ((fun dart => VertexRole.third dart.1 dart.2) '' M.darts ∪
        (fun flag => VertexRole.inner flag.1 flag.2.1) '' M.flags) := by
  ext v
  constructor
  · rintro ⟨f, w, i, a, b, place, h⟩
    cases h with
    | depart hab | turn hab => exact .inr (.inr ⟨(i, a, b), hab, rfl⟩)
    | cross hab => exact .inr (.inl ⟨(a, b), ⟨i, hab⟩, rfl⟩)
    | approach hab =>
        obtain ⟨j, -, hba⟩ := hM.mate hab
        exact .inr (.inl ⟨(b, a), ⟨j, hba⟩, rfl⟩)
    | leave hab hbc => exact .inl ⟨b, mem_tails hbc, rfl⟩
    | @enter _ _ _ c hab hbc => exact .inr (.inl ⟨(b, c), ⟨i, hbc⟩, rfl⟩)
    | back hab =>
        obtain ⟨c, hbc⟩ := hM.next hab
        exact .inr (.inr ⟨(i, b, c), hbc, rfl⟩)
  · rintro (⟨b, ⟨i, c, hbc⟩, rfl⟩ | ⟨⟨a, b⟩, ⟨i, hab⟩, rfl⟩ |
      ⟨⟨i, a, b⟩, hab, rfl⟩)
    · obtain ⟨a, hab⟩ := hM.prev hbc
      exact ⟨_, _, Pattern.mem (.leave hab hbc)⟩
    · exact ⟨_, _, Pattern.mem (.cross hab)⟩
    · exact ⟨_, _, Pattern.mem (.turn hab)⟩

theorem whirl_copiesAndRings :
    (whirl M).CopiesAndRings M FaceRole.copy FaceRole.ring where
  face := by
    rintro f v w ⟨i, a, b, place, h⟩
    cases h with
    | turn hab => exact .inl ⟨i, mem_faces hab, rfl⟩
    | depart hab | cross hab | approach hab | leave hab _ | enter hab _
    | back hab => exact .inr ⟨i, a, b, hab, rfl⟩
  copy_mem hab := ⟨_, _, Pattern.mem (.turn hab)⟩
  ring_mem hab := ⟨_, _, Pattern.mem (.cross hab)⟩
  copy_inj := FaceRole.copy.inj
  ring_inj _ _ _ _ := FaceRole.ring.inj
  copy_ne_ring _ _ _ := nofun

theorem doubleEuler_whirl
    (hM : M.Closed)
    (hfinite : M.flags.Finite) :
    (whirl M).doubleEuler = M.doubleEuler := by
  have hdarts := hM.ncard_darts
  have htails : (whirl M).tails.ncard =
      M.tails.ncard + (M.darts.ncard + M.flags.ncard) := by
    rw [tails_whirl hM, ncard_image_union (finite_tails hfinite)
        (((finite_darts hfinite).image _).union (hfinite.image _)),
      ncard_image_union (finite_darts hfinite) (hfinite.image _),
      (hM.injOn_corner _).ncard_image]
    all_goals grind [Set.InjOn]
  have hflags : (whirl M).flags.ncard = 7 * M.flags.ncard :=
    (whirlFlag_fills hM).ncard_flags
  unfold doubleEuler
  rw [htails, whirl_copiesAndRings.ncard_faces hM.toCyclic hfinite, hdarts,
    hflags]
  push_cast
  ring

end Incidence

theorem Surface.mem_whirlFlags_iff {surface : Surface}
    (hsimple : ∀ face ∈ surface, face.Nodup)
    {f : FaceRole} {v w : VertexRole} :
    ⟨f, v, w⟩ ∈ surface.whirlFlags ↔
      Incidence.whirl surface.incidence f v w := by
  simp only [Incidence.whirl_iff (cyclic_of_nodup hsimple), whirlFlags,
    List.mem_flatMap, List.mem_append, List.mem_singleton, Flag.mk.injEq,
    Prod.exists, mem_indexed_iff, Flag.mem_around_iff]
  constructor
  · rintro ⟨face, i, hface, a, b, c, htriple, h⟩
    obtain ⟨hab, hbc⟩ :=
      (exists_triple_iff hsimple).mp ⟨face, hface, htriple⟩
    exact ⟨i, a, b, c, hab, hbc,
      h.imp_right fun ⟨hf, hv, hw⟩ => ⟨hf.symm, hv.symm, hw.symm⟩⟩
  · rintro ⟨i, a, b, c, hab, hbc, h⟩
    obtain ⟨face, hface, htriple⟩ :=
      (exists_triple_iff hsimple).mpr ⟨hab, hbc⟩
    exact ⟨face, i, hface, a, b, c, htriple,
      h.imp_right fun ⟨hf, hv, hw⟩ => ⟨hf.symm, hv.symm, hw.symm⟩⟩

/-- Whirl keeps a mesh polyhedral and its Euler characteristic. -/
theorem Mesh.Polyhedral.whirl {mesh : Mesh} (h : mesh.Polyhedral) :
    ∃ out, mesh.whirl = .ok out ∧ out.Polyhedral ∧
      out.eulerCharacteristic = mesh.eulerCharacteristic := by
  have hpoly := h.incidence
  have hsites : ∀ role, role ∈
      (mesh.unitCornerSites ++ mesh.thirdSites ++ mesh.innerSites).map
        Prod.fst ↔ role ∈ (Incidence.whirl mesh.faces.incidence).tails := by
    intro role
    rw [Incidence.tails_whirl hpoly.toClosed, List.map_append,
      List.map_append, List.mem_append, List.mem_append,
      mem_unitCornerSites_iff, mem_thirdSites_iff h.simple,
      mem_innerSites_iff h.simple, h.tails_eq, or_assoc]
    rfl
  exact h.labelled (Incidence.whirl_polyhedral hpoly)
    (Incidence.doubleEuler_whirl hpoly.toClosed Surface.finite_flags)
    (fun _ _ _ => Surface.mem_whirlFlags_iff h.simple) hsites
    ("w" ++ mesh.name)

end Polyhedra
