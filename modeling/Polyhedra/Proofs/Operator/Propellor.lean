import Mathlib
import Polyhedra.Proofs.Incidence.Count
import Polyhedra.Proofs.Operator.Sites

/-!
# Propellor

Every face keeps a turned copy through the points on its own edges, and every
corner of it gets a quadrilateral.  At a point on an edge there are the copy
and three quadrilaterals.
-/

namespace Polyhedra

namespace Incidence

variable {M : Incidence ℕ ℕ}

/-- The copy of the face `i`, and the quadrilateral at its corner `b`, where
`a` comes before `b` and `c` after it. -/
inductive PropellorFlag (M : Incidence ℕ ℕ) : Pattern 5 FaceRole VertexRole
  | turn {i a b c} : M i a b → M i b c →
      PropellorFlag M i a b 0 (.copy i) (.third a b) (.third b c)
  | cross {i a b} :
      M i a b → PropellorFlag M i a b 1 (.ring i b) (.third a b) (.third b a)
  | approach {i a b} :
      M i a b → PropellorFlag M i a b 2 (.ring i b) (.third b a) (.corner b)
  | leave {i b c} :
      M i b c → PropellorFlag M i b c 3 (.ring i b) (.corner b) (.third b c)
  | back {i a b c} : M i a b → M i b c →
      PropellorFlag M i a b 4 (.ring i b) (.third b c) (.third a b)

def propellor (M : Incidence ℕ ℕ) : Incidence FaceRole VertexRole :=
  (PropellorFlag M).incidence

theorem propellor_copy_iff {i : ℕ} {v w : VertexRole} :
    propellor M (.copy i) v w ↔
      ∃ a b c, M i a b ∧ M i b c ∧ .third a b = v ∧ .third b c = w := by
  constructor
  · rintro ⟨_, _, _, _, h⟩
    cases h with
    | turn hab hbc => exact ⟨_, _, _, hab, hbc, rfl, rfl⟩
  · rintro ⟨a, b, c, hab, hbc, rfl, rfl⟩
    exact Pattern.mem (.turn hab hbc)

theorem propellor_ring_iff
    (hM : M.Cyclic)
    {i a b c : ℕ}
    (hab : M i a b)
    (hbc : M i b c)
    {v w : VertexRole} :
    propellor M (.ring i b) v w ↔
      (v, w) ∈
        Face.steps [.third a b, .third b a, .corner b, .third b c] := by
  have hhead := @hM.head_unique
  have htail := @hM.tail_unique
  rw [Face.mem_steps_four]
  constructor
  · rintro ⟨_, _, _, _, h⟩
    cases h <;> grind
  · rintro (⟨rfl, rfl⟩ | ⟨rfl, rfl⟩ | ⟨rfl, rfl⟩ | ⟨rfl, rfl⟩)
    exacts [Pattern.mem (.cross hab), Pattern.mem (.approach hab),
      Pattern.mem (.leave hbc), Pattern.mem (.back hab hbc)]

theorem propellor_iff (hM : M.Cyclic) {f : FaceRole} {v w : VertexRole} :
    propellor M f v w ↔
      ∃ i a b c, M i a b ∧ M i b c ∧
        (.copy i = f ∧ .third a b = v ∧ .third b c = w ∨ .ring i b = f ∧
          (v, w) ∈
            Face.steps [.third a b, .third b a, .corner b, .third b c]) := by
  constructor
  · rintro ⟨_, _, _, _, h⟩
    obtain ⟨i, a, b, c, hab, hbc, hf⟩ : ∃ i a b c, M i a b ∧ M i b c ∧
        (.copy i = f ∧ .third a b = v ∧ .third b c = w ∨ .ring i b = f) := by
      cases h with
      | turn hab hbc => exact ⟨_, _, _, _, hab, hbc, .inl ⟨rfl, rfl, rfl⟩⟩
      | cross hab | approach hab =>
          obtain ⟨c, hbc⟩ := hM.next hab
          exact ⟨_, _, _, _, hab, hbc, .inr rfl⟩
      | leave hbc =>
          obtain ⟨a, hab⟩ := hM.prev hbc
          exact ⟨_, _, _, _, hab, hbc, .inr rfl⟩
      | back hab hbc => exact ⟨_, _, _, _, hab, hbc, .inr rfl⟩
    refine ⟨i, a, b, c, hab, hbc, hf.imp_right ?_⟩
    rintro rfl
    exact ⟨rfl, (propellor_ring_iff hM hab hbc).mp ⟨_, _, _, _, h⟩⟩
  · rintro ⟨i, a, b, c, hab, hbc, ⟨rfl, rfl, rfl⟩ | ⟨rfl, hstep⟩⟩
    · exact propellor_copy_iff.mpr ⟨a, b, c, hab, hbc, rfl, rfl⟩
    · exact (propellor_ring_iff hM hab hbc).mpr hstep

theorem propellorFlag_fills (hM : M.Closed) : (PropellorFlag M).Fills M where
  base h := by cases h <;> assumption
  fill := by
    intro i a b hab place
    obtain ⟨c, hbc⟩ := hM.next hab
    fin_cases place
    exacts [⟨_, _, _, .turn hab hbc⟩, ⟨_, _, _, .cross hab⟩,
      ⟨_, _, _, .approach hab⟩, ⟨_, _, _, .leave hab⟩,
      ⟨_, _, _, .back hab hbc⟩]
  unique := by
    have hhead := @hM.head_unique
    intro i a b place f v w f' v' w' h h'
    cases h <;> cases h' <;> grind
  apart := by
    have hne := @hM.ne
    have hlong := @hM.long
    intro i a b place i' a' b' place' f v w h h'
    cases h <;> cases h' <;> grind

/-- The face across every edge of a quadrilateral and of a copy.  One edge of
a quadrilateral leads to the copy of its face; the others lie on the edges of
`M` before and after its corner and lead to the faces across these. -/
inductive PropellorAcross (M : Incidence ℕ ℕ) :
    FaceRole → VertexRole → FaceRole → Prop
  | turn {i a b c} : M i a b → M i b c →
      PropellorAcross M (.copy i) (.third a b) (.ring i b)
  | cross {i j a b} : M i a b → M j b a →
      PropellorAcross M (.ring i b) (.third a b) (.ring j a)
  | approach {i j a b} : M i a b → M j b a →
      PropellorAcross M (.ring i b) (.third b a) (.ring j b)
  | leave {i j b c} : M i b c → M j c b →
      PropellorAcross M (.ring i b) (.corner b) (.ring j b)
  | back {i a b c} : M i a b → M i b c →
      PropellorAcross M (.ring i b) (.third b c) (.copy i)

theorem exists_propellorAcross
    (hM : M.Closed)
    {f : FaceRole}
    {v w : VertexRole}
    (h : propellor M f v w) :
    ∃ g, PropellorAcross M f v g ∧ propellor M g w v := by
  obtain ⟨i, a, b, place, h⟩ := h
  cases h with
  | turn hab hbc => exact ⟨_, .turn hab hbc, Pattern.mem (.back hab hbc)⟩
  | cross hab =>
      obtain ⟨j, -, hba⟩ := hM.mate hab
      exact ⟨_, .cross hab hba, Pattern.mem (.cross hba)⟩
  | approach hab =>
      obtain ⟨j, -, hba⟩ := hM.mate hab
      exact ⟨_, .approach hab hba, Pattern.mem (.leave hba)⟩
  | leave hbc =>
      obtain ⟨j, -, hcb⟩ := hM.mate hbc
      exact ⟨_, .leave hbc hcb, Pattern.mem (.approach hcb)⟩
  | back hab hbc => exact ⟨_, .back hab hbc, Pattern.mem (.turn hab hbc)⟩

theorem PropellorAcross.ne
    (hM : M.Closed)
    {f g : FaceRole} {v : VertexRole}
    (h : PropellorAcross M f v g) : g ≠ f := by
  rintro rfl
  cases h with
  | cross hab hba | approach hab hba | leave hab hba =>
      exact hM.mate_ne hab hba rfl

/-- Different edges of a face have different faces across. -/
theorem PropellorAcross.unique
    (hM : M.Polyhedral)
    {f g : FaceRole}
    {v v' : VertexRole}
    (h : PropellorAcross M f v g)
    (h' : PropellorAcross M f v' g) : v = v' := by
  have hhead := @hM.head_unique
  have htail := @hM.tail_unique
  have hne := @hM.ne
  cases h with
  | approach hab hba =>
      cases h' with
      | leave hbc hcb =>
          -- one face across the edges before and after the corner `b`
          exact absurd hba (hM.degree hab hbc hcb)
      | _ => grind
  | leave hbc hcb =>
      cases h' with
      | approach hab hba => exact absurd hba (hM.degree hab hbc hcb)
      | _ => grind
  | turn | cross | back => cases h' <;> grind

theorem propellor_closed (hM : M.Closed) : (propellor M).Closed := by
  have hhead := @hM.head_unique
  have htail := @hM.tail_unique
  have howner := @hM.owner_unique
  have hne := @hM.ne
  have hlong := @hM.long
  have hcyclic : (propellor M).Cyclic := by
    refine Cyclic.of_isCycle fun f v w h => ?_
    obtain ⟨i, a, b, c, hab, hbc, ⟨rfl, -⟩ | ⟨rfl, -⟩⟩ :=
      (propellor_iff hM.toCyclic).mp h
    · apply (hM.isCycle i).transport fun a v => ∃ b, M i a b ∧ .third a b = v
      · intro v w
        rw [propellor_copy_iff]
        grind
      · exact fun a b hab => ⟨_, b, hab, rfl⟩
      · grind
      · grind
    · refine isCycle_of_steps ?_
        fun v w => propellor_ring_iff hM.toCyclic hab hbc
      grind
  refine hcyclic.closed_of_across ?_ (exists_propellorAcross hM)
    fun h => h.ne hM
  rintro f g v w ⟨i, a, b, place, h⟩ ⟨i', a', b', place', h'⟩
  cases h <;> cases h' <;> grind

/-- The quadrilaterals around an input vertex follow the faces around it. -/
theorem propellor_fan_corner
    (hM : M.Polyhedral)
    {b : ℕ} {f g : FaceRole} {v w : VertexRole}
    (hf : propellor M f (.corner b) v)
    (hg : propellor M g (.corner b) w) :
    Relation.EqvGen ((propellor M).Around (.corner b)) f g := by
  apply hM.fan_of_map b (.ring · b) _ _ hf hg
  · intro i j w hj hi
    exact .rel _ _ ⟨_, Pattern.mem (.leave hj), Pattern.mem (.approach hi)⟩
  · rintro f w ⟨_, _, _, _, h⟩
    cases h with
    | leave hbc => exact ⟨_, _, hbc, rfl⟩

/-- At a point on an edge there are a copy and three quadrilaterals. -/
theorem propellor_fan_third
    (hM : M.Closed)
    {a b : ℕ} {f g : FaceRole} {v w : VertexRole}
    (hf : propellor M f (.third a b) v)
    (hg : propellor M g (.third a b) w) :
    Relation.EqvGen ((propellor M).Around (.third a b)) f g := by
  obtain ⟨i, hab⟩ : ∃ i, M i a b := by
    obtain ⟨_, _, _, _, hf⟩ := hf
    cases hf with
    | turn hab _ | cross hab | back _ hab => exact ⟨_, hab⟩
    | approach hba => exact (hM.mate hba).imp fun _ h => h.2
  obtain ⟨c, hbc⟩ := hM.next hab
  have hcross : Relation.EqvGen ((propellor M).Around (.third a b))
      (.ring i b) (.copy i) :=
    .rel _ _ ⟨_, Pattern.mem (.turn hab hbc), Pattern.mem (.back hab hbc)⟩
  have hcommon : ∀ {f v}, propellor M f (.third a b) v →
      Relation.EqvGen ((propellor M).Around (.third a b)) f (.copy i) := by
    rintro f v ⟨_, _, _, _, hf⟩
    cases hf with
    | turn h _ =>
        rw [hM.owner_unique h hab]
        exact .refl _
    | cross h =>
        rw [hM.owner_unique h hab]
        exact hcross
    | approach hba =>
        have happroach :
            (propellor M).Around (.third a b) (.ring _ a) (.ring i b) :=
          ⟨_, Pattern.mem (.cross hab), Pattern.mem (.cross hba)⟩
        exact (Relation.EqvGen.rel _ _ happroach).trans _ _ _ hcross
    | back hza h =>
        obtain rfl := hM.owner_unique h hab
        exact .symm _ _ (.rel _ _
          ⟨_, Pattern.mem (.back hza hab), Pattern.mem (.turn hza hab)⟩)
  exact eqvGen_of_common (hcommon hf) (hcommon hg)

theorem propellor_polyhedral (hM : M.Polyhedral) :
    (propellor M).Polyhedral where
  toClosed := propellor_closed hM.toClosed
  fan {f g v} := by
    intro w w' hf hg
    cases v with
    | third a b => exact propellor_fan_third hM.toClosed hf hg
    | corner b => exact propellor_fan_corner hM hf hg
    | _ =>
        obtain ⟨_, _, _, _, hf⟩ := hf
        cases hf
  shared := (propellor_closed hM.toClosed).shared_of_across
    (exists_propellorAcross hM.toClosed) fun h => h.unique hM

/-! ### Counts -/

theorem tails_propellor (hM : M.Closed) : (propellor M).tails =
    VertexRole.corner '' M.tails ∪
      (fun dart => VertexRole.third dart.1 dart.2) '' M.darts := by
  ext v
  constructor
  · rintro ⟨f, w, i, a, b, place, h⟩
    cases h with
    | turn hab _ | cross hab => exact .inr ⟨(a, b), ⟨i, hab⟩, rfl⟩
    | approach hab =>
        obtain ⟨j, -, hba⟩ := hM.mate hab
        exact .inr ⟨(b, a), ⟨j, hba⟩, rfl⟩
    | leave hbc => exact .inl ⟨a, mem_tails hbc, rfl⟩
    | @back _ _ _ c hab hbc => exact .inr ⟨(b, c), ⟨i, hbc⟩, rfl⟩
  · rintro (⟨b, ⟨i, c, hbc⟩, rfl⟩ | ⟨⟨a, b⟩, ⟨i, hab⟩, rfl⟩)
    · exact ⟨_, _, Pattern.mem (.leave hbc)⟩
    · exact ⟨_, _, Pattern.mem (.cross hab)⟩

theorem propellor_copiesAndRings (hM : M.Closed) :
    (propellor M).CopiesAndRings M FaceRole.copy FaceRole.ring where
  face := by
    rintro f v w ⟨i, a, b, place, h⟩
    cases h with
    | turn hab _ => exact .inl ⟨i, mem_faces hab, rfl⟩
    | cross hab | approach hab | back hab _ =>
        obtain ⟨c, hbc⟩ := hM.next hab
        exact .inr ⟨i, b, c, hbc, rfl⟩
    | leave hbc => exact .inr ⟨i, a, b, hbc, rfl⟩
  copy_mem hab := by
    obtain ⟨c, hbc⟩ := hM.next hab
    exact ⟨_, _, Pattern.mem (.turn hab hbc)⟩
  ring_mem hbc := ⟨_, _, Pattern.mem (.leave hbc)⟩
  copy_inj := FaceRole.copy.inj
  ring_inj _ _ _ _ := FaceRole.ring.inj
  copy_ne_ring _ _ _ := nofun

theorem doubleEuler_propellor
    (hM : M.Closed)
    (hfinite : M.flags.Finite) :
    (propellor M).doubleEuler = M.doubleEuler := by
  have hdarts := hM.ncard_darts
  have htails :
      (propellor M).tails.ncard = M.tails.ncard + M.darts.ncard := by
    rw [tails_propellor hM, ncard_image_union (finite_tails hfinite)
      ((finite_darts hfinite).image _), Set.ncard_image_of_injective]
    all_goals grind [Function.Injective, Set.InjOn]
  have hflags : (propellor M).flags.ncard = 5 * M.flags.ncard :=
    (propellorFlag_fills hM).ncard_flags
  unfold doubleEuler
  rw [htails, (propellor_copiesAndRings hM).ncard_faces hM.toCyclic hfinite,
    hdarts, hflags]
  push_cast
  ring

end Incidence

theorem Surface.mem_propellorFlags_iff {surface : Surface}
    (hsimple : ∀ face ∈ surface, face.Nodup)
    {f : FaceRole} {v w : VertexRole} :
    ⟨f, v, w⟩ ∈ surface.propellorFlags ↔
      Incidence.propellor surface.incidence f v w := by
  simp only [Incidence.propellor_iff (cyclic_of_nodup hsimple),
    propellorFlags, List.mem_flatMap, List.mem_append, List.mem_singleton,
    Flag.mk.injEq, Prod.exists, mem_indexed_iff, Flag.mem_around_iff]
  constructor
  · rintro ⟨face, i, hface, a, b, c, htriple, h⟩
    obtain ⟨hab, hbc⟩ :=
      (exists_triple_iff hsimple).mp ⟨face, hface, htriple⟩
    exact ⟨i, a, b, c, hab, hbc,
      h.imp_left fun ⟨hf, hv, hw⟩ => ⟨hf.symm, hv.symm, hw.symm⟩⟩
  · rintro ⟨i, a, b, c, hab, hbc, h⟩
    obtain ⟨face, hface, htriple⟩ :=
      (exists_triple_iff hsimple).mpr ⟨hab, hbc⟩
    exact ⟨face, i, hface, a, b, c, htriple,
      h.imp_left fun ⟨hf, hv, hw⟩ => ⟨hf.symm, hv.symm, hw.symm⟩⟩

/-- Propellor keeps a mesh polyhedral and its Euler characteristic. -/
theorem Mesh.Polyhedral.propellor {mesh : Mesh} (h : mesh.Polyhedral) :
    ∃ out, mesh.propellor = .ok out ∧ out.Polyhedral ∧
      out.eulerCharacteristic = mesh.eulerCharacteristic := by
  have hpoly := h.incidence
  have hsites :
      ∀ role, role ∈ (mesh.unitCornerSites ++ mesh.thirdSites).map Prod.fst ↔
        role ∈ (Incidence.propellor mesh.faces.incidence).tails := by
    intro role
    rw [Incidence.tails_propellor hpoly.toClosed, List.map_append,
      List.mem_append, mem_unitCornerSites_iff, mem_thirdSites_iff h.simple,
      h.tails_eq]
    rfl
  exact h.labelled (Incidence.propellor_polyhedral hpoly)
    (Incidence.doubleEuler_propellor hpoly.toClosed Surface.finite_flags)
    (fun _ _ _ => Surface.mem_propellorFlags_iff h.simple) hsites
    ("p" ++ mesh.name)

end Polyhedra
