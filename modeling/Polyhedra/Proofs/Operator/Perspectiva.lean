import Mathlib
import Polyhedra.Proofs.Incidence.Count
import Polyhedra.Proofs.Operator.Sites

/-!
# The first Perspectiva construction

Every face keeps a smaller copy, every corner of it gets a triangle, and two
triangles take the place of every edge.
-/

namespace Polyhedra

namespace Incidence

variable {M : Incidence ℕ ℕ}

/-- The copy of the face `i`, the triangle at its corner `b`, where `a` comes
before `b` and `c` after it, and the triangle on its edge from `a` to `b`. -/
inductive PerspectivaFlag (M : Incidence ℕ ℕ) : Pattern 7 FaceRole VertexRole
  | turn {i a b c} : M i a b → M i b c →
      PerspectivaFlag M i a b 0 (.copy i) (.stellated a b) (.stellated b c)
  | back {i a b c} : M i a b → M i b c →
      PerspectivaFlag M i a b 1 (.corner i b) (.stellated b c)
        (.stellated a b)
  | approach {i a b} : M i a b →
      PerspectivaFlag M i a b 2 (.corner i b) (.stellated a b) (.corner b)
  | leave {i b c} : M i b c →
      PerspectivaFlag M i b c 3 (.corner i b) (.corner b) (.stellated b c)
  | start {i a b} : M i a b →
      PerspectivaFlag M i a b 4 (.edge a b) (.corner a) (.stellated b a)
  | across {i a b} : M i a b →
      PerspectivaFlag M i a b 5 (.edge a b) (.stellated b a) (.stellated a b)
  | finish {i a b} : M i a b →
      PerspectivaFlag M i a b 6 (.edge a b) (.stellated a b) (.corner a)

def perspectiva (M : Incidence ℕ ℕ) : Incidence FaceRole VertexRole :=
  (PerspectivaFlag M).incidence

theorem perspectiva_copy_iff {i : ℕ} {v w : VertexRole} :
    perspectiva M (.copy i) v w ↔
      ∃ a b c, M i a b ∧ M i b c ∧ .stellated a b = v ∧
        .stellated b c = w := by
  constructor
  · rintro ⟨_, _, _, _, h⟩
    cases h with
    | turn hab hbc => exact ⟨_, _, _, hab, hbc, rfl, rfl⟩
  · rintro ⟨a, b, c, hab, hbc, rfl, rfl⟩
    exact Pattern.mem (.turn hab hbc)

theorem perspectiva_corner_iff
    (hM : M.Cyclic)
    {i a b c : ℕ}
    (hab : M i a b)
    (hbc : M i b c)
    {v w : VertexRole} :
    perspectiva M (.corner i b) v w ↔
      (v, w) ∈ Face.steps [.stellated b c, .stellated a b, .corner b] := by
  have hhead := @hM.head_unique
  have htail := @hM.tail_unique
  rw [Face.mem_steps_three]
  constructor
  · rintro ⟨_, _, _, _, h⟩
    cases h <;> grind
  · rintro (⟨rfl, rfl⟩ | ⟨rfl, rfl⟩ | ⟨rfl, rfl⟩)
    exacts [Pattern.mem (.back hab hbc), Pattern.mem (.approach hab),
      Pattern.mem (.leave hbc)]

theorem perspectiva_edge_iff {i a b : ℕ} (hab : M i a b) {v w : VertexRole} :
    perspectiva M (.edge a b) v w ↔
      (v, w) ∈ Face.steps [.corner a, .stellated b a, .stellated a b] := by
  rw [Face.mem_steps_three]
  constructor
  · rintro ⟨_, _, _, _, h⟩
    cases h <;> grind
  · rintro (⟨rfl, rfl⟩ | ⟨rfl, rfl⟩ | ⟨rfl, rfl⟩)
    exacts [Pattern.mem (.start hab), Pattern.mem (.across hab),
      Pattern.mem (.finish hab)]

theorem perspectiva_iff (hM : M.Cyclic) {f : FaceRole} {v w : VertexRole} :
    perspectiva M f v w ↔
      ∃ i a b c, M i a b ∧ M i b c ∧
        (.copy i = f ∧ .stellated a b = v ∧ .stellated b c = w ∨
          .corner i b = f ∧
          (v, w) ∈ Face.steps [.stellated b c, .stellated a b, .corner b] ∨
          .edge a b = f ∧ (v, w) ∈
            Face.steps [.corner a, .stellated b a, .stellated a b]) := by
  constructor
  · rintro ⟨_, _, _, _, h⟩
    obtain ⟨i, a, b, c, hab, hbc, hf⟩ : ∃ i a b c, M i a b ∧ M i b c ∧
        (.copy i = f ∧ .stellated a b = v ∧ .stellated b c = w ∨
          .corner i b = f ∨ .edge a b = f) := by
      cases h with
      | turn hab hbc => exact ⟨_, _, _, _, hab, hbc, .inl ⟨rfl, rfl, rfl⟩⟩
      | back hab hbc => exact ⟨_, _, _, _, hab, hbc, .inr (.inl rfl)⟩
      | approach hab =>
          obtain ⟨c, hbc⟩ := hM.next hab
          exact ⟨_, _, _, _, hab, hbc, .inr (.inl rfl)⟩
      | leave hbc =>
          obtain ⟨a, hab⟩ := hM.prev hbc
          exact ⟨_, _, _, _, hab, hbc, .inr (.inl rfl)⟩
      | start hab | across hab | finish hab =>
          obtain ⟨c, hbc⟩ := hM.next hab
          exact ⟨_, _, _, _, hab, hbc, .inr (.inr rfl)⟩
    refine ⟨i, a, b, c, hab, hbc, hf.imp_right (Or.imp ?_ ?_)⟩
    · rintro rfl
      exact ⟨rfl, (perspectiva_corner_iff hM hab hbc).mp ⟨_, _, _, _, h⟩⟩
    · rintro rfl
      exact ⟨rfl, (perspectiva_edge_iff hab).mp ⟨_, _, _, _, h⟩⟩
  · rintro ⟨i, a, b, c, hab, hbc,
      ⟨rfl, rfl, rfl⟩ | ⟨rfl, hstep⟩ | ⟨rfl, hstep⟩⟩
    · exact perspectiva_copy_iff.mpr ⟨a, b, c, hab, hbc, rfl, rfl⟩
    · exact (perspectiva_corner_iff hM hab hbc).mpr hstep
    · exact (perspectiva_edge_iff hab).mpr hstep

theorem perspectivaFlag_fills (hM : M.Closed) :
    (PerspectivaFlag M).Fills M where
  base h := by cases h <;> assumption
  fill := by
    intro i a b hab place
    obtain ⟨c, hbc⟩ := hM.next hab
    fin_cases place
    exacts [⟨_, _, _, .turn hab hbc⟩, ⟨_, _, _, .back hab hbc⟩,
      ⟨_, _, _, .approach hab⟩, ⟨_, _, _, .leave hab⟩, ⟨_, _, _, .start hab⟩,
      ⟨_, _, _, .across hab⟩, ⟨_, _, _, .finish hab⟩]
  unique := by
    have hhead := @hM.head_unique
    intro i a b place f v w f' v' w' h h'
    cases h <;> cases h' <;> grind
  apart := by
    have howner := @hM.owner_unique
    have hne := @hM.ne
    have hlong := @hM.long
    intro i a b place i' a' b' place' f v w h h'
    cases h <;> cases h' <;> grind

/-- The face across every edge of a copy and of the triangles.  A triangle at
a corner lies between the copy and the triangles on the two edges there; a
triangle on an edge lies between the triangles at its start in the two faces
and the triangle on the reverse edge. -/
inductive PerspectivaAcross (M : Incidence ℕ ℕ) :
    FaceRole → VertexRole → FaceRole → Prop
  | turn {i a b c} : M i a b → M i b c →
      PerspectivaAcross M (.copy i) (.stellated a b) (.corner i b)
  | back {i a b c} : M i a b → M i b c →
      PerspectivaAcross M (.corner i b) (.stellated b c) (.copy i)
  | approach {i j a b} : M i a b → M j b a →
      PerspectivaAcross M (.corner i b) (.stellated a b) (.edge b a)
  | leave {i b c} : M i b c →
      PerspectivaAcross M (.corner i b) (.corner b) (.edge b c)
  | start {i j a b} : M i a b → M j b a →
      PerspectivaAcross M (.edge a b) (.corner a) (.corner j a)
  | across {i j a b} : M i a b → M j b a →
      PerspectivaAcross M (.edge a b) (.stellated b a) (.edge b a)
  | finish {i a b} : M i a b →
      PerspectivaAcross M (.edge a b) (.stellated a b) (.corner i a)

theorem exists_perspectivaAcross
    (hM : M.Closed)
    {f : FaceRole}
    {v w : VertexRole}
    (h : perspectiva M f v w) :
    ∃ g, PerspectivaAcross M f v g ∧ perspectiva M g w v := by
  obtain ⟨i, a, b, place, h⟩ := h
  cases h with
  | turn hab hbc => exact ⟨_, .turn hab hbc, Pattern.mem (.back hab hbc)⟩
  | back hab hbc => exact ⟨_, .back hab hbc, Pattern.mem (.turn hab hbc)⟩
  | approach hab =>
      obtain ⟨j, -, hba⟩ := hM.mate hab
      exact ⟨_, .approach hab hba, Pattern.mem (.start hba)⟩
  | leave hbc => exact ⟨_, .leave hbc, Pattern.mem (.finish hbc)⟩
  | start hab =>
      obtain ⟨j, -, hba⟩ := hM.mate hab
      exact ⟨_, .start hab hba, Pattern.mem (.approach hba)⟩
  | across hab =>
      obtain ⟨j, -, hba⟩ := hM.mate hab
      exact ⟨_, .across hab hba, Pattern.mem (.across hba)⟩
  | finish hab => exact ⟨_, .finish hab, Pattern.mem (.leave hab)⟩

theorem PerspectivaAcross.ne
    (hM : M.Closed)
    {f g : FaceRole}
    {v : VertexRole}
    (h : PerspectivaAcross M f v g) : g ≠ f := by
  rintro rfl
  cases h with
  | across hab hba => exact hM.ne hab rfl

/-- Different edges of a face have different faces across, also where two
faces of `M` share several edges. -/
theorem PerspectivaAcross.unique
    (hM : M.Closed)
    {f g : FaceRole}
    {v v' : VertexRole}
    (h : PerspectivaAcross M f v g)
    (h' : PerspectivaAcross M f v' g) : v = v' := by
  have hhead := @hM.head_unique
  have htail := @hM.tail_unique
  -- the edges before and after a corner differ
  have hlong := @hM.long
  -- the two faces at an edge differ
  have hmate := @hM.mate_ne
  cases h <;> cases h' <;> grind

theorem perspectiva_closed (hM : M.Closed) : (perspectiva M).Closed := by
  have hhead := @hM.head_unique
  have htail := @hM.tail_unique
  have howner := @hM.owner_unique
  have hne := @hM.ne
  have hlong := @hM.long
  have hcyclic : (perspectiva M).Cyclic := by
    refine Cyclic.of_isCycle fun f v w h => ?_
    obtain ⟨i, a, b, c, hab, hbc, ⟨rfl, -⟩ | ⟨rfl, -⟩ | ⟨rfl, -⟩⟩ :=
      (perspectiva_iff hM.toCyclic).mp h
    · apply (hM.isCycle i).transport
        fun a v => ∃ b, M i a b ∧ .stellated a b = v
      · intro v w
        rw [perspectiva_copy_iff]
        grind
      · exact fun a b hab => ⟨_, b, hab, rfl⟩
      · grind
      · grind
    · refine isCycle_of_steps ?_
        fun v w => perspectiva_corner_iff hM.toCyclic hab hbc
      grind
    · refine isCycle_of_steps ?_ fun v w => perspectiva_edge_iff hab
      grind
  refine hcyclic.closed_of_across ?_ (exists_perspectivaAcross hM)
    fun h => h.ne hM
  rintro f g v w ⟨i, a, b, place, h⟩ ⟨i', a', b', place', h'⟩
  cases h <;> cases h' <;> grind

/-- Around an input vertex every face has a triangle at its corner and one on
its edge. -/
theorem perspectiva_fan_corner
    (hM : M.Polyhedral)
    {b : ℕ} {f g : FaceRole} {v w : VertexRole}
    (hf : perspectiva M f (.corner b) v)
    (hg : perspectiva M g (.corner b) w) :
    Relation.EqvGen ((perspectiva M).Around (.corner b)) f g := by
  have hjoin : ∀ {i f}, (.corner i b = f ∨ ∃ c, M i b c ∧ .edge b c = f) →
      Relation.EqvGen ((perspectiva M).Around (.corner b)) f
        (.corner i b) := by
    rintro i f (rfl | ⟨c, hbc, rfl⟩)
    · exact .refl _
    · exact .rel _ _ ⟨_, Pattern.mem (.leave hbc), Pattern.mem (.finish hbc)⟩
  apply hM.fan_of_image b
    (fun i f => .corner i b = f ∨ ∃ c, M i b c ∧ .edge b c = f) _ _ _ hf hg
  · intro i f g hf hg
    exact eqvGen_of_common (hjoin hf) (hjoin hg)
  · intro i j w hj hi
    exact ⟨_, _, .inl rfl, .inr ⟨w, hj, rfl⟩,
      .rel _ _ ⟨_, Pattern.mem (.start hj), Pattern.mem (.approach hi)⟩⟩
  · rintro f w ⟨_, _, _, _, h⟩
    cases h with
    | leave hbc => exact ⟨_, _, hbc, .inl rfl⟩
    | start hbc => exact ⟨_, _, hbc, .inr ⟨_, hbc, rfl⟩⟩

/-- At a point next to an edge there are a copy and four triangles. -/
theorem perspectiva_fan_stellated
    (hM : M.Closed)
    {a b : ℕ} {f g : FaceRole} {v w : VertexRole}
    (hf : perspectiva M f (.stellated a b) v)
    (hg : perspectiva M g (.stellated a b) w) :
    Relation.EqvGen ((perspectiva M).Around (.stellated a b)) f g := by
  obtain ⟨i, hab⟩ : ∃ i, M i a b := by
    obtain ⟨_, _, _, _, hf⟩ := hf
    cases hf with
    | turn hab _ | back _ hab | approach hab | finish hab => exact ⟨_, hab⟩
    | across hba => exact (hM.mate hba).imp fun _ h => h.2
  obtain ⟨j, -, hba⟩ := hM.mate hab
  obtain ⟨c, hbc⟩ := hM.next hab
  have hhead : Relation.EqvGen ((perspectiva M).Around (.stellated a b))
      (.corner i b) (.copy i) :=
    .rel _ _ ⟨_, Pattern.mem (.turn hab hbc), Pattern.mem (.back hab hbc)⟩
  have hmate : Relation.EqvGen ((perspectiva M).Around (.stellated a b))
      (.edge b a) (.corner i b) :=
    .rel _ _ ⟨_, Pattern.mem (.approach hab), Pattern.mem (.start hba)⟩
  have hedge : Relation.EqvGen ((perspectiva M).Around (.stellated a b))
      (.edge a b) (.edge b a) :=
    .rel _ _ ⟨_, Pattern.mem (.across hba), Pattern.mem (.across hab)⟩
  have hcommon : ∀ {f v}, perspectiva M f (.stellated a b) v →
      Relation.EqvGen ((perspectiva M).Around (.stellated a b)) f
        (.copy i) := by
    rintro f v ⟨_, _, _, _, hf⟩
    cases hf with
    | turn h _ =>
        rw [hM.owner_unique h hab]
        exact .refl _
    | back hza h =>
        obtain rfl := hM.owner_unique h hab
        exact .symm _ _ (.rel _ _
          ⟨_, Pattern.mem (.back hza hab), Pattern.mem (.turn hza hab)⟩)
    | approach h =>
        rw [hM.owner_unique h hab]
        exact hhead
    | across _ => exact hmate.trans _ _ _ hhead
    | finish _ => exact hedge.trans _ _ _ (hmate.trans _ _ _ hhead)
  exact eqvGen_of_common (hcommon hf) (hcommon hg)

theorem perspectiva_polyhedral (hM : M.Polyhedral) :
    (perspectiva M).Polyhedral where
  toClosed := perspectiva_closed hM.toClosed
  fan {f g v} := by
    intro w w' hf hg
    cases v with
    | stellated a b => exact perspectiva_fan_stellated hM.toClosed hf hg
    | corner b => exact perspectiva_fan_corner hM hf hg
    | _ =>
        obtain ⟨_, _, _, _, hf⟩ := hf
        cases hf
  shared := (perspectiva_closed hM.toClosed).shared_of_across
    (exists_perspectivaAcross hM.toClosed) fun h => h.unique hM.toClosed

/-! ### Counts -/

theorem tails_perspectiva (hM : M.Closed) : (perspectiva M).tails =
    VertexRole.corner '' M.tails ∪
      (fun dart => VertexRole.stellated dart.1 dart.2) '' M.darts := by
  ext v
  constructor
  · rintro ⟨f, w, i, a, b, place, h⟩
    cases h with
    | turn hab _ | approach hab | finish hab =>
        exact .inr ⟨(a, b), ⟨i, hab⟩, rfl⟩
    | @back _ _ _ c _ hbc => exact .inr ⟨(b, c), ⟨i, hbc⟩, rfl⟩
    | leave hab | start hab => exact .inl ⟨a, mem_tails hab, rfl⟩
    | across hab =>
        obtain ⟨j, -, hba⟩ := hM.mate hab
        exact .inr ⟨(b, a), ⟨j, hba⟩, rfl⟩
  · rintro (⟨b, ⟨i, c, hbc⟩, rfl⟩ | ⟨⟨a, b⟩, ⟨i, hab⟩, rfl⟩)
    · exact ⟨_, _, Pattern.mem (.leave hbc)⟩
    · exact ⟨_, _, Pattern.mem (.finish hab)⟩

theorem faces_perspectiva (hM : M.Closed) :
    (perspectiva M).faces =
      FaceRole.copy '' M.faces ∪
      ((fun flag => FaceRole.corner flag.1 flag.2.1) '' M.flags ∪
        (fun dart => FaceRole.edge dart.1 dart.2) '' M.darts) := by
  ext f
  constructor
  · rintro ⟨v, w, i, a, b, place, h⟩
    cases h with
    | turn hab _ => exact .inl ⟨i, mem_faces hab, rfl⟩
    | back hab _ | approach hab =>
        obtain ⟨c, hbc⟩ := hM.next hab
        exact .inr (.inl ⟨(i, b, c), hbc, rfl⟩)
    | leave hbc => exact .inr (.inl ⟨(i, a, b), hbc, rfl⟩)
    | start hab | across hab | finish hab =>
        exact .inr (.inr ⟨(a, b), ⟨i, hab⟩, rfl⟩)
  · rintro (⟨i, ⟨a, b, hab⟩, rfl⟩ | ⟨⟨i, b, c⟩, hbc, rfl⟩ |
      ⟨⟨a, b⟩, ⟨i, hab⟩, rfl⟩)
    · obtain ⟨c, hbc⟩ := hM.next hab
      exact ⟨_, _, Pattern.mem (.turn hab hbc)⟩
    · exact ⟨_, _, Pattern.mem (.leave hbc)⟩
    · exact ⟨_, _, Pattern.mem (.start hab)⟩

theorem ncard_faces_perspectiva
    (hM : M.Closed)
    (hfinite : M.flags.Finite) :
    (perspectiva M).faces.ncard =
      M.faces.ncard + (M.flags.ncard + M.darts.ncard) := by
  rw [faces_perspectiva hM, ncard_image_union (finite_faces hfinite)
      ((hfinite.image _).union ((finite_darts hfinite).image _)),
    ncard_image_union hfinite ((finite_darts hfinite).image _)
      (hM.injOn_corner _), Set.ncard_image_of_injective]
  all_goals grind [Function.Injective, Set.InjOn]

theorem doubleEuler_perspectiva
    (hM : M.Closed)
    (hfinite : M.flags.Finite) :
    (perspectiva M).doubleEuler = M.doubleEuler := by
  have hdarts := hM.ncard_darts
  have htails :
      (perspectiva M).tails.ncard = M.tails.ncard + M.darts.ncard := by
    rw [tails_perspectiva hM, ncard_image_union (finite_tails hfinite)
      ((finite_darts hfinite).image _), Set.ncard_image_of_injective]
    all_goals grind [Function.Injective, Set.InjOn]
  have hflags : (perspectiva M).flags.ncard = 7 * M.flags.ncard :=
    (perspectivaFlag_fills hM).ncard_flags
  unfold doubleEuler
  rw [htails, ncard_faces_perspectiva hM hfinite, hdarts, hflags]
  push_cast
  ring

end Incidence

theorem Surface.mem_perspectivaFlags_iff {surface : Surface}
    (hsimple : ∀ face ∈ surface, face.Nodup)
    {f : FaceRole} {v w : VertexRole} :
    ⟨f, v, w⟩ ∈ surface.perspectivaFlags ↔
      Incidence.perspectiva surface.incidence f v w := by
  simp only [Incidence.perspectiva_iff (cyclic_of_nodup hsimple),
    perspectivaFlags, List.mem_flatMap, List.mem_append, List.mem_singleton,
    Flag.mk.injEq, Prod.exists, mem_indexed_iff, Flag.mem_around_iff,
    or_assoc]
  constructor
  · rintro ⟨face, i, hface, a, b, c, htriple, h⟩
    obtain ⟨hab, hbc⟩ :=
      (exists_triple_iff hsimple).mp ⟨face, hface, htriple⟩
    exact ⟨i, a, b, c, hab, hbc,
      h.imp_left fun ⟨hf, hv, hw⟩ => ⟨hf.symm, hv.symm, hw.symm⟩⟩
  · rintro ⟨i, a, b, c, hab, hbc, h⟩
    obtain ⟨face, hface, htriple⟩ :=
      (exists_triple_iff hsimple).mpr ⟨hab, hbc⟩
    exact ⟨face, i, hface, a, b, c, htriple,
      h.imp_left fun ⟨hf, hv, hw⟩ => ⟨hf.symm, hv.symm, hw.symm⟩⟩

/-- The first Perspectiva construction keeps a mesh polyhedral and its Euler
characteristic. -/
theorem Mesh.Polyhedral.perspectiva {mesh : Mesh} (h : mesh.Polyhedral) :
    ∃ out, mesh.perspectiva = .ok out ∧ out.Polyhedral ∧
      out.eulerCharacteristic = mesh.eulerCharacteristic := by
  have hpoly := h.incidence
  have hsites :
      ∀ role, role ∈ (mesh.cornerSites ++ mesh.stellatedSites).map Prod.fst ↔
        role ∈ (Incidence.perspectiva mesh.faces.incidence).tails := by
    intro role
    rw [Incidence.tails_perspectiva hpoly.toClosed, List.map_append,
      List.mem_append, mem_cornerSites_iff, mem_stellatedSites_iff h.simple,
      h.tails_eq]
    rfl
  exact h.labelled (Incidence.perspectiva_polyhedral hpoly)
    (Incidence.doubleEuler_perspectiva hpoly.toClosed Surface.finite_flags)
    (fun _ _ _ => Surface.mem_perspectivaFlags_iff h.simple) hsites
    ("P" ++ mesh.name)

end Polyhedra
