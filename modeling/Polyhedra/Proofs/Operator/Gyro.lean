import Mathlib
import Polyhedra.Proofs.Incidence.Count
import Polyhedra.Proofs.Operator.Sites

/-!
# Gyro

Every corner of every face gets a pentagon that reaches to the centre of the
face.  The pentagons around the centre follow the corners of the face, those
around an input vertex follow the faces around it, and at a point on an edge
there are three of them.
-/

namespace Polyhedra

namespace Incidence

variable {M : Incidence ℕ ℕ}

/-- The pentagon between the centre of the face `i` and its corner `b`, where
`a` comes before `b` and `c` after it. -/
inductive GyroFlag (M : Incidence ℕ ℕ) : Pattern 5 FaceRole VertexRole
  | spoke {i a b} :
      M i a b → GyroFlag M i a b 0 (.ring i a) (.center i) (.third a b)
  | cross {i a b} :
      M i a b → GyroFlag M i a b 1 (.ring i a) (.third a b) (.third b a)
  | approach {i a b} :
      M i a b → GyroFlag M i a b 2 (.ring i a) (.third b a) (.corner b)
  | leave {i a b c} : M i a b → M i b c →
      GyroFlag M i a b 3 (.ring i a) (.corner b) (.third b c)
  | back {i a b c} : M i a b → M i b c →
      GyroFlag M i a b 4 (.ring i a) (.third b c) (.center i)

def gyro (M : Incidence ℕ ℕ) : Incidence FaceRole VertexRole :=
  (GyroFlag M).incidence

theorem gyro_ring_iff
    (hM : M.Cyclic)
    {i a b c : ℕ}
    (hab : M i a b)
    (hbc : M i b c)
    {v w : VertexRole} :
    gyro M (.ring i a) v w ↔
      (v, w) ∈
        Face.steps
          [.center i, .third a b, .third b a, .corner b, .third b c] := by
  have hhead := @hM.head_unique
  rw [Face.mem_steps_five]
  constructor
  · rintro ⟨_, _, _, _, h⟩
    cases h <;> grind
  · rintro (⟨rfl, rfl⟩ | ⟨rfl, rfl⟩ | ⟨rfl, rfl⟩ | ⟨rfl, rfl⟩ | ⟨rfl, rfl⟩)
    exacts [Pattern.mem (.spoke hab), Pattern.mem (.cross hab),
      Pattern.mem (.approach hab), Pattern.mem (.leave hab hbc),
      Pattern.mem (.back hab hbc)]

theorem gyro_iff (hM : M.Cyclic) {f : FaceRole} {v w : VertexRole} :
    gyro M f v w ↔
      ∃ i a b c, M i a b ∧ M i b c ∧ .ring i a = f ∧
        (v, w) ∈
          Face.steps
            [.center i, .third a b, .third b a, .corner b, .third b c] := by
  constructor
  · rintro ⟨i, a, b, place, h⟩
    have hbase : M i a b ∧ f = .ring i a := by
      cases h <;> exact ⟨by assumption, rfl⟩
    obtain ⟨hab, rfl⟩ := hbase
    obtain ⟨c, hbc⟩ := hM.next hab
    exact ⟨i, a, b, c, hab, hbc, rfl,
      (gyro_ring_iff hM hab hbc).mp ⟨_, _, _, _, h⟩⟩
  · rintro ⟨i, a, b, c, hab, hbc, rfl, hstep⟩
    exact (gyro_ring_iff hM hab hbc).mpr hstep

theorem gyroFlag_fills (hM : M.Closed) : (GyroFlag M).Fills M where
  base h := by cases h <;> assumption
  fill := by
    intro i a b hab place
    obtain ⟨c, hbc⟩ := hM.next hab
    fin_cases place
    exacts [⟨_, _, _, .spoke hab⟩, ⟨_, _, _, .cross hab⟩,
      ⟨_, _, _, .approach hab⟩, ⟨_, _, _, .leave hab hbc⟩,
      ⟨_, _, _, .back hab hbc⟩]
  unique := by
    have hhead := @hM.head_unique
    intro i a b place f v w f' v' w' h h'
    cases h <;> cases h' <;> grind
  apart := by
    have hhead := @hM.head_unique
    have hne := @hM.ne
    have hlong := @hM.long
    intro i a b place i' a' b' place' f v w h h'
    cases h <;> cases h' <;> grind

/-- The pentagon across every edge of a pentagon.  The spokes lead to the
pentagons before and after it in the same face; the other three edges lie on
edges of `M` and lead to the faces across these. -/
inductive GyroAcross (M : Incidence ℕ ℕ) :
    FaceRole → VertexRole → FaceRole → Prop
  | spoke {i z a b} : M i z a → M i a b →
      GyroAcross M (.ring i a) (.center i) (.ring i z)
  | cross {i j a b} : M i a b → M j b a →
      GyroAcross M (.ring i a) (.third a b) (.ring j b)
  | approach {i j z a b} : M i a b → M j z b → M j b a →
      GyroAcross M (.ring i a) (.third b a) (.ring j z)
  | leave {i j a b c} : M i a b → M i b c → M j c b →
      GyroAcross M (.ring i a) (.corner b) (.ring j c)
  | back {i a b c} : M i a b → M i b c →
      GyroAcross M (.ring i a) (.third b c) (.ring i b)

theorem exists_gyroAcross
    (hM : M.Closed)
    {f : FaceRole} {v w : VertexRole}
    (h : gyro M f v w) : ∃ g, GyroAcross M f v g ∧ gyro M g w v := by
  obtain ⟨i, a, b, place, h⟩ := h
  cases h with
  | spoke hab =>
      obtain ⟨z, hza⟩ := hM.prev hab
      exact ⟨_, .spoke hza hab, Pattern.mem (.back hza hab)⟩
  | cross hab =>
      obtain ⟨j, -, hba⟩ := hM.mate hab
      exact ⟨_, .cross hab hba, Pattern.mem (.cross hba)⟩
  | approach hab =>
      obtain ⟨j, -, hba⟩ := hM.mate hab
      obtain ⟨z, hzb⟩ := hM.prev hba
      exact ⟨_, .approach hab hzb hba, Pattern.mem (.leave hzb hba)⟩
  | leave hab hbc =>
      obtain ⟨j, -, hcb⟩ := hM.mate hbc
      exact ⟨_, .leave hab hbc hcb, Pattern.mem (.approach hcb)⟩
  | back hab hbc => exact ⟨_, .back hab hbc, Pattern.mem (.spoke hbc)⟩

theorem GyroAcross.ne
    (hM : M.Closed)
    {f g : FaceRole} {v : VertexRole}
    (h : GyroAcross M f v g) : g ≠ f := by
  rintro rfl
  cases h with
  | spoke hza _ => exact hM.ne hza rfl
  | cross hab hba => exact hM.ne hab rfl
  | approach hab _ hba => exact hM.mate_ne hab hba rfl
  | leave _ hbc hcb => exact hM.mate_ne hbc hcb rfl
  | back hab _ => exact hM.ne hab rfl

/-- Different edges of a pentagon have different pentagons across. -/
theorem GyroAcross.unique
    (hM : M.Polyhedral)
    {f g : FaceRole}
    {v v' : VertexRole}
    (h : GyroAcross M f v g)
    (h' : GyroAcross M f v' g) : v = v' := by
  have hhead := @hM.head_unique
  have hne := @hM.ne
  have hlong := @hM.long
  -- what lies across an edge of `M` is not in the same face
  have hmate := @hM.mate_ne
  cases h with
  | approach hab hzb hba =>
      cases h' with
      | leave hab' hbc hcb =>
          -- one face across the edges before and after the corner `b`
          obtain rfl := hhead hab hab'
          exact absurd hba (hM.degree hab hbc hcb)
      | _ => grind
  | leave hab hbc hcb =>
      cases h' with
      | approach hab' hzb hba =>
          obtain rfl := hhead hab hab'
          exact absurd hba (hM.degree hab hbc hcb)
      | _ => grind
  | spoke | cross | back => cases h' <;> grind

theorem gyro_closed (hM : M.Closed) : (gyro M).Closed := by
  have hhead := @hM.head_unique
  have htail := @hM.tail_unique
  have howner := @hM.owner_unique
  have hne := @hM.ne
  have hlong := @hM.long
  have hcyclic : (gyro M).Cyclic := by
    refine Cyclic.of_isCycle fun f v w h => ?_
    obtain ⟨i, a, b, c, hab, hbc, rfl, -⟩ := (gyro_iff hM.toCyclic).mp h
    refine isCycle_of_steps ?_ fun v w => gyro_ring_iff hM.toCyclic hab hbc
    grind
  refine hcyclic.closed_of_across ?_ (exists_gyroAcross hM)
    fun h => h.ne hM
  rintro f g v w ⟨i, a, b, place, h⟩ ⟨i', a', b', place', h'⟩
  cases h <;> cases h' <;> grind

/-- The pentagons around the centre of a face follow the corners of the
face. -/
theorem gyro_fan_center
    (hM : M.Closed)
    {j : ℕ} {f g : FaceRole} {v w : VertexRole}
    (hf : gyro M f (.center j) v)
    (hg : gyro M g (.center j) w) :
    Relation.EqvGen ((gyro M).Around (.center j)) f g := by
  obtain ⟨_, _, _, _, hf⟩ := hf
  obtain ⟨_, _, _, _, hg⟩ := hg
  cases hf with
  | spoke hab =>
      cases hg with
      | spoke hcd =>
          apply eqvGen_transport (fun x u => .ring j x = u) _ _
            (hM.turn hab hcd) rfl rfl
          · rintro x _ _ rfl rfl
            exact .refl _
          · intro x y hxy
            obtain ⟨z, hyz⟩ := hM.next hxy
            exact ⟨_, _, rfl, rfl, .rel _ _
              ⟨_, Pattern.mem (.spoke hyz), Pattern.mem (.back hxy hyz)⟩⟩

/-- The pentagons around an input vertex follow the faces around it. -/
theorem gyro_fan_corner
    (hM : M.Polyhedral)
    {b : ℕ} {f g : FaceRole} {v w : VertexRole}
    (hf : gyro M f (.corner b) v)
    (hg : gyro M g (.corner b) w) :
    Relation.EqvGen ((gyro M).Around (.corner b)) f g := by
  apply hM.fan_of_arrivals b .ring _ _ hf hg
  · intro i j u w hu hj hi
    exact .rel _ _
      ⟨_, Pattern.mem (.leave hu hj), Pattern.mem (.approach hi)⟩
  · rintro f w ⟨_, _, _, _, h⟩
    cases h with
    | leave hab hbc => exact ⟨_, _, _, hab, hbc, rfl⟩

/-- At a point on an edge there are three pentagons. -/
theorem gyro_fan_third
    (hM : M.Closed)
    {a b : ℕ} {f g : FaceRole} {v w : VertexRole}
    (hf : gyro M f (.third a b) v)
    (hg : gyro M g (.third a b) w) :
    Relation.EqvGen ((gyro M).Around (.third a b)) f g := by
  obtain ⟨i, hab⟩ : ∃ i, M i a b := by
    obtain ⟨_, _, _, _, hf⟩ := hf
    cases hf with
    | cross hab => exact ⟨_, hab⟩
    | approach hba => exact (hM.mate hba).imp fun _ h => h.2
    | back _ hab => exact ⟨_, hab⟩
  have hcommon : ∀ {f v}, gyro M f (.third a b) v →
      Relation.EqvGen ((gyro M).Around (.third a b)) f (.ring i a) := by
    rintro f v ⟨_, _, _, _, hf⟩
    cases hf with
    | cross h =>
        rw [hM.owner_unique h hab]
        exact .refl _
    | approach hba =>
        exact .rel _ _
          ⟨_, Pattern.mem (.cross hab), Pattern.mem (.cross hba)⟩
    | back hza h =>
        obtain rfl := hM.owner_unique h hab
        exact .symm _ _ (.rel _ _
          ⟨_, Pattern.mem (.back hza hab), Pattern.mem (.spoke hab)⟩)
  exact eqvGen_of_common (hcommon hf) (hcommon hg)

theorem gyro_polyhedral (hM : M.Polyhedral) : (gyro M).Polyhedral where
  toClosed := gyro_closed hM.toClosed
  fan {f g v} := by
    intro w w' hf hg
    cases v with
    | center j => exact gyro_fan_center hM.toClosed hf hg
    | third a b => exact gyro_fan_third hM.toClosed hf hg
    | corner b => exact gyro_fan_corner hM hf hg
    | _ =>
        obtain ⟨_, _, _, _, hf⟩ := hf
        cases hf
  shared := (gyro_closed hM.toClosed).shared_of_across
    (exists_gyroAcross hM.toClosed) fun h => h.unique hM

/-! ### Counts -/

theorem tails_gyro (hM : M.Closed) : (gyro M).tails =
    VertexRole.corner '' M.tails ∪ (VertexRole.center '' M.faces ∪
      (fun dart => VertexRole.third dart.1 dart.2) '' M.darts) := by
  ext v
  constructor
  · rintro ⟨f, w, i, a, b, place, h⟩
    cases h with
    | spoke hab => exact .inr (.inl ⟨i, mem_faces hab, rfl⟩)
    | cross hab => exact .inr (.inr ⟨(a, b), ⟨i, hab⟩, rfl⟩)
    | approach hab =>
        obtain ⟨j, -, hba⟩ := hM.mate hab
        exact .inr (.inr ⟨(b, a), ⟨j, hba⟩, rfl⟩)
    | leave hab hbc => exact .inl ⟨b, mem_tails hbc, rfl⟩
    | @back _ _ _ c hab hbc => exact .inr (.inr ⟨(b, c), ⟨i, hbc⟩, rfl⟩)
  · rintro (⟨b, ⟨i, c, hbc⟩, rfl⟩ | ⟨i, ⟨a, b, hab⟩, rfl⟩ |
      ⟨⟨a, b⟩, ⟨i, hab⟩, rfl⟩)
    · obtain ⟨a, hab⟩ := hM.prev hbc
      exact ⟨_, _, Pattern.mem (.leave hab hbc)⟩
    · exact ⟨_, _, Pattern.mem (.spoke hab)⟩
    · exact ⟨_, _, Pattern.mem (.cross hab)⟩

theorem faces_gyro : (gyro M).faces =
    (fun flag => FaceRole.ring flag.1 flag.2.1) '' M.flags := by
  ext f
  constructor
  · rintro ⟨v, w, i, a, b, place, h⟩
    cases h with
    | spoke hab | cross hab | approach hab => exact ⟨(i, a, b), hab, rfl⟩
    | leave hab _ | back hab _ => exact ⟨(i, a, b), hab, rfl⟩
  · rintro ⟨⟨i, a, b⟩, hab, rfl⟩
    exact ⟨_, _, Pattern.mem (.spoke hab)⟩

/-- Every flag has one pentagon. -/
theorem ncard_faces_gyro (hM : M.Closed) :
    (gyro M).faces.ncard = M.flags.ncard := by
  rw [faces_gyro, (hM.injOn_corner _).ncard_image]
  grind

theorem doubleEuler_gyro
    (hM : M.Closed)
    (hfinite : M.flags.Finite) :
    (gyro M).doubleEuler = M.doubleEuler := by
  have hdarts := hM.ncard_darts
  have htails : (gyro M).tails.ncard =
      M.tails.ncard + (M.faces.ncard + M.darts.ncard) := by
    rw [tails_gyro hM,
      ncard_image_union (finite_tails hfinite) (((finite_faces hfinite).image
        _).union ((finite_darts hfinite).image _)),
      ncard_image_union (finite_faces hfinite)
        ((finite_darts hfinite).image _), Set.ncard_image_of_injective]
    all_goals grind [Function.Injective, Set.InjOn]
  have hflags : (gyro M).flags.ncard = 5 * M.flags.ncard :=
    (gyroFlag_fills hM).ncard_flags
  unfold doubleEuler
  rw [htails, ncard_faces_gyro hM, hdarts, hflags]
  push_cast
  ring

end Incidence

namespace Surface

variable {surface : Surface}

theorem mem_gyroFlags_iff
    (hsimple : ∀ face ∈ surface, face.Nodup)
    {f : FaceRole} {v w : VertexRole} :
    ⟨f, v, w⟩ ∈ surface.gyroFlags ↔
      Incidence.gyro surface.incidence f v w := by
  have hcyclic := cyclic_of_nodup hsimple
  simp only [Incidence.gyro_iff hcyclic, gyroFlags, List.mem_flatMap,
    Prod.exists, mem_indexed_iff, Flag.mem_around_iff]
  constructor
  · rintro ⟨face, i, hface, a, b, c, htriple, rfl, hstep⟩
    obtain ⟨hab, hbc⟩ :=
      (exists_triple_iff hsimple).mp ⟨face, hface, htriple⟩
    exact ⟨i, a, b, c, hab, hbc, rfl, hstep⟩
  · rintro ⟨i, a, b, c, hab, hbc, rfl, hstep⟩
    obtain ⟨face, hface, htriple⟩ :=
      (exists_triple_iff hsimple).mpr ⟨hab, hbc⟩
    exact ⟨face, i, hface, a, b, c, htriple, rfl, hstep⟩

end Surface

namespace Mesh

variable {mesh : Mesh}

/-- Gyro keeps a mesh polyhedral and its Euler characteristic. -/
theorem Polyhedral.gyro (h : mesh.Polyhedral) :
    ∃ out, mesh.gyro = .ok out ∧ out.Polyhedral ∧
      out.eulerCharacteristic = mesh.eulerCharacteristic := by
  have hpoly := h.incidence
  have hsites : ∀ role, role ∈
      (mesh.unitCornerSites ++ mesh.centerSites ++ mesh.thirdSites).map
        Prod.fst ↔ role ∈ (Incidence.gyro mesh.faces.incidence).tails := by
    intro role
    rw [Incidence.tails_gyro hpoly.toClosed, List.map_append,
      List.map_append, List.mem_append, List.mem_append,
      mem_unitCornerSites_iff, mem_centerSites_iff,
      mem_thirdSites_iff h.simple, h.tails_eq, h.faces_eq, or_assoc]
    rfl
  exact h.labelled (Incidence.gyro_polyhedral hpoly)
    (Incidence.doubleEuler_gyro hpoly.toClosed Surface.finite_flags)
    (fun _ _ _ => Surface.mem_gyroFlags_iff h.simple) hsites
    ("g" ++ mesh.name)

end Mesh
end Polyhedra
