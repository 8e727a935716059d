import Mathlib
import Polyhedra.Proofs.Incidence.Count
import Polyhedra.Proofs.Operator.Sites

/-!
# Kis

A pyramid takes the place of every selected face.  The kept faces are
declared as polygons after all flags, so they are numbered among themselves.
-/

namespace Polyhedra

namespace Incidence

variable {M : Incidence ℕ ℕ} {selected : ℕ → Prop}

/-- The triangle on the edge from `a` to `b` of a selected face `i`; the same
edge of a kept face. -/
inductive KisFlag (M : Incidence ℕ ℕ) (selected : ℕ → Prop) :
    Pattern 4 FaceRole VertexRole
  | foot {i a b} : selected i → M i a b →
      KisFlag M selected i a b 0 (.ring i a) (.corner a) (.corner b)
  | rise {i a b} : selected i → M i a b →
      KisFlag M selected i a b 1 (.ring i a) (.corner b) (.center i)
  | fall {i a b} : selected i → M i a b →
      KisFlag M selected i a b 2 (.ring i a) (.center i) (.corner a)
  | kept {i a b} : ¬ selected i → M i a b →
      KisFlag M selected i a b 3 (.kept i) (.corner a) (.corner b)

def kis (M : Incidence ℕ ℕ) (selected : ℕ → Prop) :
    Incidence FaceRole VertexRole :=
  (KisFlag M selected).incidence

theorem kis_kept_iff {i : ℕ} (hi : ¬ selected i) {v w : VertexRole} :
    kis M selected (.kept i) v w ↔
      ∃ a b, M i a b ∧ .corner a = v ∧ .corner b = w := by
  constructor
  · rintro ⟨_, _, _, _, h⟩
    cases h with
    | kept _ hab => exact ⟨_, _, hab, rfl, rfl⟩
  · rintro ⟨a, b, hab, rfl, rfl⟩
    exact Pattern.mem (.kept hi hab)

theorem kis_ring_iff
    (hM : M.Cyclic)
    {i a b : ℕ}
    (hi : selected i)
    (hab : M i a b)
    {v w : VertexRole} :
    kis M selected (.ring i a) v w ↔
      (v, w) ∈ Face.steps [.corner a, .corner b, .center i] := by
  have hhead := @hM.head_unique
  rw [Face.mem_steps_three]
  constructor
  · rintro ⟨_, _, _, _, h⟩
    cases h <;> grind
  · rintro (⟨rfl, rfl⟩ | ⟨rfl, rfl⟩ | ⟨rfl, rfl⟩)
    exacts [Pattern.mem (.foot hi hab), Pattern.mem (.rise hi hab),
      Pattern.mem (.fall hi hab)]

theorem kis_iff (hM : M.Cyclic) {f : FaceRole} {v w : VertexRole} :
    kis M selected f v w ↔
      ∃ i a b, M i a b ∧
        (selected i ∧ .ring i a = f ∧
          (v, w) ∈ Face.steps [.corner a, .corner b, .center i] ∨
          ¬ selected i ∧ .kept i = f ∧ .corner a = v ∧ .corner b = w) := by
  constructor
  · rintro ⟨_, _, _, _, h⟩
    have hring : ∀ {i a b}, selected i → M i a b → .ring i a = f →
        (v, w) ∈ Face.steps [.corner a, .corner b, .center i] := by
      rintro i a b hi hab rfl
      exact (kis_ring_iff hM hi hab).mp ⟨_, _, _, _, h⟩
    cases h with
    | foot hi hab | rise hi hab | fall hi hab =>
        exact ⟨_, _, _, hab, .inl ⟨hi, rfl, hring hi hab rfl⟩⟩
    | kept hi hab => exact ⟨_, _, _, hab, .inr ⟨hi, rfl, rfl, rfl⟩⟩
  · rintro ⟨i, a, b, hab, ⟨hi, rfl, hstep⟩ | ⟨hi, rfl, rfl, rfl⟩⟩
    · exact (kis_ring_iff hM hi hab).mpr hstep
    · exact Pattern.mem (.kept hi hab)

theorem kis_wall {i a b : ℕ} (hab : M i a b) :
    kis M selected (.wall selected i a) (.corner a) (.corner b) := by
  by_cases hi : selected i
  · rw [FaceRole.wall_of_selected hi]
    exact Pattern.mem (.foot hi hab)
  · rw [FaceRole.wall_of_not_selected hi]
    exact Pattern.mem (.kept hi hab)

theorem kisFlag_splits (hM : M.Closed) :
    (KisFlag M selected).Splits M selected := by
  have hhead := @hM.head_unique
  have hseparates : (KisFlag M selected).Separates := by
    constructor
    · intro i a b place f v w f' v' w' h h'
      cases h <;> cases h' <;> grind
    · intro i a b place i' a' b' place' f v w h h'
      cases h <;> cases h' <;> grind
  apply hseparates.splits
  · intro i a b place f v w h
    cases h <;> simp_all [Fin.ext_iff]
  · intro i a b hi hab place
    fin_cases place
    exacts [⟨_, _, _, .foot hi hab⟩, ⟨_, _, _, .rise hi hab⟩,
      ⟨_, _, _, .fall hi hab⟩]
  · exact fun hi hab => ⟨_, _, _, .kept hi hab⟩

theorem kis_cyclic (hM : M.Polygonal) : (kis M selected).Cyclic := by
  have hhead := @hM.head_unique
  have htail := @hM.tail_unique
  refine Cyclic.of_isCycle ?_
  intro f v w h
  obtain ⟨i, a, b, hab, ⟨hi, rfl, -⟩ | ⟨hi, rfl, -⟩⟩ :=
    (kis_iff hM.toCyclic).mp h
  · have hab' := hM.ne hab
    refine isCycle_of_steps ?_ fun v w => kis_ring_iff hM.toCyclic hi hab
    grind
  · apply (hM.isCycle i).transport fun a v => .corner a = v
    · intro v w
      exact kis_kept_iff hi
    · exact fun a _ _ => ⟨_, rfl⟩
    · grind
    · grind

/-- The face across every edge of a triangle and of a kept face.  The edges
to the apex lead to the triangles before and after it in the same face, the
foot and the edges of a kept face to the wall on the reverse edge. -/
inductive KisAcross (M : Incidence ℕ ℕ) (selected : ℕ → Prop) :
    FaceRole → VertexRole → FaceRole → Prop
  | foot {i j a b g} : M i a b → M j b a → .wall selected j b = g →
      KisAcross M selected (.ring i a) (.corner a) g
  | rise {i a b c} : M i a b → M i b c →
      KisAcross M selected (.ring i a) (.corner b) (.ring i b)
  | fall {i z a b} : M i z a → M i a b →
      KisAcross M selected (.ring i a) (.center i) (.ring i z)
  | kept {i j a b g} : M i a b → M j b a → .wall selected j b = g →
      KisAcross M selected (.kept i) (.corner a) g

theorem exists_kisAcross
    (hM : M.Closed)
    {f : FaceRole} {v w : VertexRole}
    (h : kis M selected f v w) :
    ∃ g, KisAcross M selected f v g ∧ kis M selected g w v := by
  obtain ⟨i, a, b, place, h⟩ := h
  cases h with
  | foot hi hab =>
      obtain ⟨j, -, hba⟩ := hM.mate hab
      exact ⟨_, .foot hab hba rfl, kis_wall hba⟩
  | rise hi hab =>
      obtain ⟨c, hbc⟩ := hM.next hab
      exact ⟨_, .rise hab hbc, Pattern.mem (.fall hi hbc)⟩
  | fall hi hab =>
      obtain ⟨z, hza⟩ := hM.prev hab
      exact ⟨_, .fall hza hab, Pattern.mem (.rise hi hza)⟩
  | kept hi hab =>
      obtain ⟨j, -, hba⟩ := hM.mate hab
      exact ⟨_, .kept hab hba rfl, kis_wall hba⟩

theorem KisAcross.ne
    (hM : M.Closed)
    {f g : FaceRole} {v : VertexRole}
    (h : KisAcross M selected f v g) : g ≠ f := by
  have hmate := @hM.mate_ne
  rintro rfl
  cases h with
  | foot hab hba hwall | kept hab hba hwall =>
      unfold FaceRole.wall at hwall
      grind
  | rise hab _ => exact hM.ne hab rfl
  | fall hza _ => exact hM.ne hza rfl

/-- Different edges of a face have different faces across. -/
theorem KisAcross.unique
    (hM : M.Polyhedral)
    {f g : FaceRole}
    {v v' : VertexRole}
    (h : KisAcross M selected f v g)
    (h' : KisAcross M selected f v' g) : v = v' := by
  have hhead := @hM.head_unique
  have hlong := @hM.long
  have hmate := @hM.mate_ne
  cases h with
  | kept hab hba hwall =>
      cases h' with
      | kept hab' hba' hwall' =>
          -- the walls of one face, so an edge that two faces of `M` share
          obtain rfl := FaceRole.wall_face_inj (hwall.trans hwall'.symm)
          rw [(hM.edge_unique hab hba hab' hba').1]
  | foot hab hba hwall =>
      unfold FaceRole.wall at hwall
      cases h' <;> grind
  | rise | fall =>
      cases h' with
      | foot _ _ hwall =>
          unfold FaceRole.wall at hwall
          grind
      | _ => grind

theorem kis_closed (hM : M.Closed) : (kis M selected).Closed := by
  have howner := @hM.owner_unique
  have hhead := @hM.head_unique
  have htail := @hM.tail_unique
  refine (kis_cyclic hM.polygonal).closed_of_across ?_ (exists_kisAcross hM)
    fun h => h.ne hM
  rintro f g v w ⟨i, a, b, place, h⟩ ⟨i', a', b', place', h'⟩
  cases h <;> cases h' <;> grind

/-- Each directed edge of the input is one of exactly one face of kis, so kis
is closed only if the input is. -/
theorem kis_closed_iff (hM : M.Polygonal) :
    (kis M selected).Closed ↔ M.Closed := by
  have hwall : ∀ {i a b}, M i a b →
      kis M selected (.wall selected i a) (.corner a) (.corner b) := kis_wall
  refine ⟨fun h => ⟨hM.toCyclic, ?_, ?_⟩, kis_closed⟩
  · intro i j a b hi hj
    have hsame := h.owner_unique (hwall hi) (hwall hj)
    simp only [FaceRole.wall] at hsame
    grind
  · intro i a b hab
    obtain ⟨f, -, _, _, _, _, hf⟩ := h.mate (hwall hab)
    -- the two faces of a side differ because a polygon does not go back the
    -- way it came
    cases hf with
    | foot hi hba | kept hi hba =>
        exact ⟨_, fun heq => hM.long hab (heq ▸ hba) rfl, hba⟩

/-- Around an input vertex a selected face has two triangles. -/
theorem kis_fan_corner
    (hM : M.Polyhedral)
    {b : ℕ} {f g : FaceRole} {v w : VertexRole}
    (hf : kis M selected f (.corner b) v)
    (hg : kis M selected g (.corner b) w) :
    Relation.EqvGen ((kis M selected).Around (.corner b)) f g := by
  apply hM.fan_of_selected kis_wall _ _ hf hg
  · intro i a c hi hab hbc
    exact .symm _ _ (.rel _ _
      ⟨_, Pattern.mem (.rise hi hab), Pattern.mem (.fall hi hbc)⟩)
  · rintro f w ⟨_, _, _, _, h⟩
    cases h with
    | foot hi hbc => exact .inl ⟨_, _, hbc, FaceRole.wall_of_selected hi _⟩
    | rise hi hab => exact .inr ⟨_, _, hi, hab, rfl⟩
    | kept hi hbc =>
        exact .inl ⟨_, _, hbc, FaceRole.wall_of_not_selected hi _⟩

/-- Around an apex the triangles follow the corners of the face. -/
theorem kis_fan_center
    (hM : M.Closed)
    {i : ℕ} {f g : FaceRole} {v w : VertexRole}
    (hf : kis M selected f (.center i) v)
    (hg : kis M selected g (.center i) w) :
    Relation.EqvGen ((kis M selected).Around (.center i)) f g := by
  have hring : ∀ {f v}, kis M selected f (.center i) v →
      selected i ∧ ∃ a b, M i a b ∧ .ring i a = f := by
    rintro f v ⟨_, _, _, _, h⟩
    cases h with
    | fall hi hab => exact ⟨hi, _, _, hab, rfl⟩
  obtain ⟨hi, a, b, hab, rfl⟩ := hring hf
  obtain ⟨-, a', b', hab', rfl⟩ := hring hg
  apply eqvGen_transport (fun a f => .ring i a = f) _ _ (hM.turn hab hab')
    rfl rfl
  · rintro a _ _ rfl rfl
    exact .refl _
  · intro a b hab
    obtain ⟨c, hbc⟩ := hM.next hab
    exact ⟨_, _, rfl, rfl,
      .rel _ _ ⟨_, Pattern.mem (.fall hi hbc), Pattern.mem (.rise hi hab)⟩⟩

theorem kis_polyhedral (hM : M.Polyhedral) :
    (kis M selected).Polyhedral where
  toClosed := kis_closed hM.toClosed
  fan {f g v} := by
    intro w w' hf hg
    cases v with
    | corner b => exact kis_fan_corner hM hf hg
    | center i => exact kis_fan_center hM.toClosed hf hg
    | _ =>
        obtain ⟨_, _, _, _, hf⟩ := hf
        cases hf
  shared := (kis_closed hM.toClosed).shared_of_across
    (exists_kisAcross hM.toClosed) fun h => h.unique hM

/-! ### Counts -/

theorem tails_kis (hM : M.Cyclic) :
    (kis M selected).tails =
      VertexRole.corner '' M.tails ∪ VertexRole.center ''
      {i ∈ M.faces | selected i} := by
  ext v
  constructor
  · rintro ⟨f, w, i, a, b, place, h⟩
    cases h with
    | foot _ hab | kept _ hab => exact .inl ⟨a, mem_tails hab, rfl⟩
    | rise _ hab => exact .inl ⟨b, hM.head_mem_tails hab, rfl⟩
    | fall hi hab => exact .inr ⟨i, ⟨mem_faces hab, hi⟩, rfl⟩
  · rintro (⟨a, ⟨i, b, hab⟩, rfl⟩ | ⟨i, ⟨⟨a, b, hab⟩, hi⟩, rfl⟩)
    · exact ⟨_, _, kis_wall hab⟩
    · exact ⟨_, _, Pattern.mem (.fall hi hab)⟩

theorem faces_kis :
    (kis M selected).faces =
      (fun flag => FaceRole.ring flag.1 flag.2.1) ''
      {flag ∈ M.flags | selected flag.1} ∪ FaceRole.kept ''
      {i ∈ M.faces | ¬ selected i} := by
  ext f
  constructor
  · rintro ⟨v, w, i, a, b, place, h⟩
    cases h with
    | foot hi hab | rise hi hab | fall hi hab =>
        exact .inl ⟨(i, a, b), ⟨hab, hi⟩, rfl⟩
    | kept hi hab => exact .inr ⟨i, ⟨mem_faces hab, hi⟩, rfl⟩
  · rintro (⟨⟨i, a, b⟩, ⟨hab, hi⟩, rfl⟩ | ⟨i, ⟨⟨a, b, hab⟩, hi⟩, rfl⟩)
    · exact ⟨_, _, Pattern.mem (.foot hi hab)⟩
    · exact ⟨_, _, Pattern.mem (.kept hi hab)⟩

theorem ncard_tails_kis
    (hM : M.Cyclic)
    (hfinite : M.flags.Finite) :
    (kis M selected).tails.ncard =
      M.tails.ncard + {i ∈ M.faces | selected i}.ncard := by
  have hselectedFinite : {i ∈ M.faces | selected i}.Finite :=
    (finite_faces hfinite).subset fun _ hi => hi.1
  rw [tails_kis hM,
    ncard_image_union (finite_tails hfinite) (hselectedFinite.image _),
    Set.ncard_image_of_injective]
  all_goals grind [Function.Injective, Set.InjOn]

theorem ncard_faces_kis
    (hM : M.Cyclic)
    (hfinite : M.flags.Finite) :
    (kis M selected).faces.ncard =
      {flag ∈ M.flags | selected flag.1}.ncard +
      {i ∈ M.faces | ¬ selected i}.ncard := by
  have hflagsFinite : {flag ∈ M.flags | selected flag.1}.Finite :=
    hfinite.subset fun _ hflag => hflag.1
  have hkeptFinite : {i ∈ M.faces | ¬ selected i}.Finite :=
    (finite_faces hfinite).subset fun _ hi => hi.1
  rw [faces_kis, ncard_image_union hflagsFinite (hkeptFinite.image _)
      ((hM.injOn_corner _).mono fun _ hflag => hflag.1),
    Set.ncard_image_of_injective]
  all_goals grind [Function.Injective, Set.InjOn]

theorem doubleEuler_kis
    (hM : M.Closed)
    (hfinite : M.flags.Finite) :
    (kis M selected).doubleEuler = M.doubleEuler := by
  have hsplits : (KisFlag M selected).Splits M selected := kisFlag_splits hM
  have hflags := hsplits.ncard_flags hfinite
  have hsplit := ncard_sep_add hfinite fun flag => selected flag.1
  have hsplitFaces := ncard_sep_add (finite_faces hfinite) selected
  change (kis M selected).flags.ncard = _ at hflags
  unfold doubleEuler
  rw [ncard_tails_kis hM.toCyclic hfinite,
    ncard_faces_kis hM.toCyclic hfinite, hflags, ← hsplit, ← hsplitFaces]
  push_cast
  ring

theorem ncard_triangles_before (hM : M.Cyclic) (b : ℕ) :
    {f | ∃ i a, selected i ∧ M i a b ∧ FaceRole.ring i a = f}.ncard =
      {i | selected i ∧ ∃ c, M i b c}.ncard := by
  apply ncard_eq_of_matching fun (f : FaceRole) i => ∃ a, M i a b ∧
    .ring i a = f
  · rintro f ⟨i, a, hi, hab, rfl⟩
    exact ⟨i, ⟨hi, hM.next hab⟩, a, hab, rfl⟩
  · rintro i ⟨hi, c, hbc⟩
    obtain ⟨a, hab⟩ := hM.prev hbc
    exact ⟨_, ⟨i, a, hi, hab, rfl⟩, a, hab, rfl⟩
  · rintro _ - _ - i ⟨a, hab, rfl⟩ ⟨a', hab', rfl⟩
    rw [hM.tail_unique hab hab']
  · rintro _ i - j - ⟨a, -, rfl⟩ ⟨a', -, heq⟩
    cases heq
    rfl

/-- At an input vertex a face has one face on each side of the corner when it
is selected, and itself otherwise. -/
theorem ncard_kis_corner
    (hM : M.Closed)
    (hfinite : M.flags.Finite)
    (b : ℕ) :
    {f | ∃ w, kis M selected f (.corner b) w}.ncard =
      {i | ∃ c, M i b c}.ncard + {i | selected i ∧ ∃ c, M i b c}.ncard := by
  -- a face has a wall after the corner, and when it is selected a triangle
  -- before it as well
  let before : Set FaceRole :=
    {f | ∃ i a, selected i ∧ M i a b ∧ .ring i a = f}
  have hsplit : {f | ∃ w, kis M selected f (.corner b) w} =
      (fun i => FaceRole.wall selected i b) '' {i | ∃ c, M i b c} ∪
      before := by
    ext f
    constructor
    · rintro ⟨w, _, _, _, _, h⟩
      cases h with
      | foot hi hbc =>
          exact .inl ⟨_, ⟨_, hbc⟩, FaceRole.wall_of_selected hi _⟩
      | rise hi hab => exact .inr ⟨_, _, hi, hab, rfl⟩
      | kept hi hbc =>
          exact .inl ⟨_, ⟨_, hbc⟩, FaceRole.wall_of_not_selected hi _⟩
    · rintro (⟨i, ⟨c, hbc⟩, rfl⟩ | ⟨i, a, hi, hab, rfl⟩)
      · exact ⟨_, kis_wall hbc⟩
      · exact ⟨_, Pattern.mem (.rise hi hab)⟩
  have hafterFinite : {i | ∃ c, M i b c}.Finite :=
    (finite_faces hfinite).subset fun _ ⟨_, hbc⟩ => mem_faces hbc
  have hbeforeFinite : before.Finite := by
    apply (hfinite.image fun flag => FaceRole.ring flag.1 flag.2.1).subset
    rintro _ ⟨i, a, -, hab, rfl⟩
    exact ⟨(i, a, b), hab, rfl⟩
  have hwall : Set.InjOn (fun i => FaceRole.wall selected i b)
      {i | ∃ c, M i b c} := by
    intro i _ j _ heq
    simp only [FaceRole.wall] at heq
    grind
  have hdisjoint :
      ∀ i ∈ {i | ∃ c, M i b c}, FaceRole.wall selected i b ∉ before := by
    rintro i - ⟨j, a, hj, hab, heq⟩
    have hne := hM.ne hab
    simp only [FaceRole.wall] at heq
    grind
  rw [hsplit, ncard_image_union hafterFinite hbeforeFinite hwall hdisjoint]
  exact congrArg _ (ncard_triangles_before hM.toCyclic b)

/-- An apex has as many faces as its base has corners. -/
theorem ncard_kis_center {j : ℕ} (hj : selected j) :
    {f | ∃ w, kis M selected f (.center j) w}.ncard =
      {a | ∃ b, M j a b}.ncard := by
  have himage : {f | ∃ w, kis M selected f (.center j) w} =
      FaceRole.ring j '' {a | ∃ b, M j a b} := by
    ext f
    constructor
    · rintro ⟨w, _, _, _, _, h⟩
      cases h with
      | fall hi hab => exact ⟨_, ⟨_, hab⟩, rfl⟩
    · rintro ⟨a, ⟨b, hab⟩, rfl⟩
      exact ⟨_, Pattern.mem (.fall hj hab)⟩
  rw [himage, Set.ncard_image_of_injective]
  grind [Function.Injective]

end Incidence

/-! ## Kept polygons -/

/-- An entry of a filtered list stands at the number of entries that pass
before it. -/
theorem getElem?_filter_eq_some_iff {α : Type} {p : α → Bool} {list : List α}
    {j : ℕ} {a : α} :
    (list.filter p)[j]? = some a ↔
      ∃ i, list[i]? = some a ∧ p a = true ∧ (list.take i).countP p = j := by
  induction list generalizing j with
  | nil => simp
  | cons b rest ih =>
      have hshift : (∃ i, (b :: rest)[i]? = some a ∧ p a = true ∧
            ((b :: rest).take i).countP p = j) ↔
          b = a ∧ p a = true ∧ 0 = j ∨
          ∃ i, rest[i]? = some a ∧ p a = true ∧
            (b :: rest.take i).countP p = j := by
        constructor
        · rintro ⟨i, hi, hp, hj⟩
          cases i with
          | zero => exact .inl ⟨Option.some.inj hi, hp, by simpa using hj⟩
          | succ i => exact .inr ⟨i, hi, hp, hj⟩
        · rintro (⟨rfl, hp, rfl⟩ | ⟨i, hi, hp, hj⟩)
          · exact ⟨0, rfl, hp, rfl⟩
          · exact ⟨i + 1, hi, hp, hj⟩
      rw [hshift]
      by_cases hb : p b = true
      · rw [List.filter_cons_of_pos hb]
        cases j with
        | zero =>
            simp only [List.getElem?_cons_zero, Option.some.injEq,
              List.countP_cons_of_pos hb]
            grind
        | succ j =>
            simp only [List.getElem?_cons_succ, ih,
              List.countP_cons_of_pos hb]
            grind
      · rw [List.filter_cons_of_neg hb, ih]
        simp only [List.countP_cons_of_neg hb]
        grind

/-- Entries that pass are told apart by the number of entries that pass
before them. -/
theorem countP_take_inj {α : Type} {p : α → Bool} {list : List α} {i j : ℕ}
    {a b : α}
    (hi : list[i]? = some a)
    (ha : p a = true)
    (hj : list[j]? = some b)
    (hb : p b = true)
    (h : (list.take i).countP p = (list.take j).countP p) : i = j := by
  have hlt : ∀ {i j : ℕ} {a : α}, list[i]? = some a → p a = true → i < j →
      (list.take i).countP p < (list.take j).countP p := by
    intro i j a hi ha hij
    have hnext :
        (list.take (i + 1)).countP p = (list.take i).countP p + 1 := by
      simp [List.take_add_one, hi, ha]
    have hle : (list.take (i + 1)).countP p ≤ (list.take j).countP p :=
      (List.take_sublist_take_left hij).countP_le
    omega
  rcases lt_trichotomy i j with hij | hij | hij
  · exact absurd h (hlt hi ha hij).ne
  · exact hij
  · exact absurd h.symm (hlt hj hb hij).ne

namespace Surface

variable {surface : Surface} {sides : ℕ}

/-- A triangle has the key of its edge, and a kept face the number of kept
faces before it. -/
def kisFace (surface : Surface) (sides : ℕ) : FaceRole → IndexKey ⊕ ℕ
  | .ring i a => .inl (.pair i a)
  | .kept i =>
      .inr
        ((surface.take i).countP fun face => !Face.passes sides face.length)
  | _ => .inr 0

/-- Vertices keep their indices, and the apexes follow them. -/
def kisKey (count : ℕ) : VertexRole → IndexKey
  | .corner v => .single v
  | .center i => .apex count i
  | _ => .single 0

theorem mem_kisFlags_iff {count : ℕ} {f v w : IndexKey} :
    ⟨f, v, w⟩ ∈ surface.kisFlags count sides ↔
      ∃ i a b, surface.incidence i a b ∧ surface.Selects sides i ∧
        .pair i a = f ∧
        (v, w) ∈ Face.steps [.single a, .single b, .apex count i] := by
  simp only [kisFlags, List.mem_flatMap, Prod.exists, mem_indexed_iff]
  constructor
  · rintro ⟨face, i, hface, h⟩
    by_cases hi : Face.passes sides face.length = true
    · simp only [if_pos hi, List.mem_flatMap, Prod.exists,
        Flag.mem_around_iff] at h
      obtain ⟨a, b, harrival, h⟩ := h
      exact ⟨i, a, b, exists_arrival_iff.mp ⟨face, hface, harrival⟩,
        (selects_iff hface).mpr hi, h⟩
    · rw [if_neg hi] at h
      cases h
  · rintro ⟨i, a, b, hab, hi, h⟩
    obtain ⟨face, hface, harrival⟩ := exists_arrival_iff.mpr hab
    refine ⟨face, i, hface, ?_⟩
    simp only [if_pos ((selects_iff hface).mp hi), List.mem_flatMap,
      Prod.exists, Flag.mem_around_iff]
    exact ⟨a, b, harrival, h⟩

theorem getElem?_kisPolygons {j : ℕ} {keys : List IndexKey} :
    (surface.kisPolygons sides)[j]? = some keys ↔
      ∃ i face, surface[i]? = some face ∧ ¬ surface.Selects sides i ∧
        surface.kisFace sides (.kept i) = .inr j ∧
        face.map IndexKey.single = keys := by
  simp only [kisPolygons, List.getElem?_map, Option.map_eq_some_iff,
    getElem?_filter_eq_some_iff, kisFace, Sum.inr.injEq]
  constructor
  · rintro ⟨face, ⟨i, hface, hi, hj⟩, hkeys⟩
    refine ⟨i, face, hface, ?_, hj, hkeys⟩
    rw [selects_iff hface]
    simpa using hi
  · rintro ⟨i, face, hface, hi, hj, hkeys⟩
    rw [selects_iff hface] at hi
    exact ⟨face, ⟨i, hface, by simpa using hi, hj⟩, hkeys⟩

/-- The flags and the polygons of kis are its faces. -/
theorem kis_shape
    (hsimple : ∀ face ∈ surface, face.Nodup)
    {count : ℕ} {blueprint : Blueprint IndexKey IndexKey}
    (hflags : blueprint.flags = surface.kisFlags count sides)
    (hpolygons : blueprint.polygons = surface.kisPolygons sides) :
    blueprint.shape =
      (Incidence.kis surface.incidence (surface.Selects sides)).rename
        (surface.kisFace sides) (kisKey count) := by
  have hcyclic := cyclic_of_nodup hsimple
  have hring : ∀ i a b : ℕ, [IndexKey.single a, .single b, .apex count i] =
      [VertexRole.corner a, .corner b, .center i].map (kisKey count) :=
    fun _ _ _ => rfl
  ext f v w
  simp only [Incidence.rename, Incidence.kis_iff hcyclic]
  cases f with
  | inl f =>
      have hmem : blueprint.shape (.inl f) v w ↔
          ⟨f, v, w⟩ ∈ surface.kisFlags count sides := by
        rw [← hflags]
        exact Iff.rfl
      rw [hmem, mem_kisFlags_iff]
      constructor
      · rintro ⟨i, a, b, hab, hi, rfl, hstep⟩
        rw [hring, Face.steps_map] at hstep
        obtain ⟨⟨x, y⟩, hxy, heq⟩ := List.mem_map.mp hstep
        cases heq
        exact ⟨_, x, y, ⟨i, a, b, hab, .inl ⟨hi, rfl, hxy⟩⟩, rfl, rfl, rfl⟩
      · rintro ⟨_, x, y, ⟨i, a, b, hab, ⟨hi, rfl, hxy⟩ | ⟨-, rfl, -⟩⟩, hf,
          rfl, rfl⟩
        · refine ⟨i, a, b, hab, hi, Sum.inl_injective hf, ?_⟩
          rw [hring, Face.steps_map]
          exact List.mem_map_of_mem hxy
        · cases hf
  | inr j =>
      have hmem : blueprint.shape (.inr j) v w ↔
          ∃ keys, (surface.kisPolygons sides)[j]? = some keys ∧
            (v, w) ∈ Face.steps keys := by
        rw [← hpolygons]
        exact Iff.rfl
      rw [hmem]
      constructor
      · rintro ⟨keys, hkeys, hstep⟩
        obtain ⟨i, face, hface, hi, hj, rfl⟩ := getElem?_kisPolygons.mp hkeys
        rw [Face.steps_map] at hstep
        obtain ⟨⟨a, b⟩, hab, heq⟩ := List.mem_map.mp hstep
        cases heq
        exact ⟨_, _, _,
          ⟨i, a, b, ⟨face, hface, hab⟩, .inr ⟨hi, rfl, rfl, rfl⟩⟩, hj, rfl,
          rfl⟩
      · rintro ⟨_, _, _,
          ⟨i, a, b, ⟨face, hface, hab⟩, ⟨-, rfl, -⟩ | ⟨hi, rfl, rfl, rfl⟩⟩,
          hf, rfl, rfl⟩
        · cases hf
        · refine ⟨_, getElem?_kisPolygons.mpr ⟨i, face, hface, hi, hf, rfl⟩,
            ?_⟩
          rw [Face.steps_map]
          exact List.mem_map_of_mem hab

end Surface

namespace Mesh

variable {mesh : Mesh}

theorem mem_indexSites_iff {key : IndexKey} :
    key ∈ mesh.indexSites.map Prod.fst ↔
      ∃ v < mesh.vertexCount, .single v = key := by
  have hkeys : mesh.indexSites.map Prod.fst =
      (List.range mesh.vertexCount).map IndexKey.single := by
    rw [range_vertexCount, indexSites, List.map_map, List.map_map]
    rfl
  rw [hkeys]
  simp

theorem mem_apexSites_iff {sides : ℕ} {height : Float} {key : IndexKey} :
    key ∈ (mesh.apexSites sides height).map Prod.fst ↔
      ∃ i < mesh.faceCount, mesh.faces.Selects sides i ∧
        .apex mesh.vertexCount i = key := by
  simp only [apexSites, List.mem_map, List.mem_filter, Prod.exists,
    Surface.mem_indexed_iff]
  constructor
  · rintro ⟨_, _, ⟨face, i, ⟨hface, hi⟩, heq⟩, rfl⟩
    exact ⟨i, (List.getElem?_eq_some_iff.mp hface).1,
      (Surface.selects_iff hface).mpr hi, congrArg Prod.fst heq⟩
  · rintro ⟨i, -, ⟨face, hface, hi⟩, rfl⟩
    exact ⟨_, _, ⟨face, i, ⟨hface, hi⟩, rfl⟩, rfl⟩

/-- The construction of kis. -/
def kisBlueprint (mesh : Mesh) (sides : ℕ) (height : Float) :
    Blueprint IndexKey IndexKey where
  sites := mesh.indexSites ++ mesh.apexSites sides height
  flags := mesh.faces.kisFlags mesh.vertexCount sides
  polygons := mesh.faces.kisPolygons sides

theorem InRange.kis_eq (hrange : mesh.InRange) (sides : ℕ) (height : Float) :
    mesh.kis sides height =
      (mesh.kisBlueprint sides height).build
        (Word.prepend 'k' sides mesh.name) := by
  unfold Mesh.kis
  rw [requireInRange_bind hrange]
  rfl

theorem mem_kisBlueprint_sites_iff {sides : ℕ} {height : Float}
    {key : IndexKey} :
    key ∈ (mesh.kisBlueprint sides height).sites.map Prod.fst ↔
      (∃ v < mesh.vertexCount, .single v = key) ∨
      ∃ i < mesh.faceCount, mesh.faces.Selects sides i ∧
        .apex mesh.vertexCount i = key := by
  rw [kisBlueprint, List.map_append, List.mem_append, mem_indexSites_iff,
    mem_apexSites_iff]

theorem kisBlueprint_shape
    (hsimple : ∀ face ∈ mesh.faces, face.Nodup)
    (sides : ℕ) (height : Float) :
    (mesh.kisBlueprint sides height).shape =
      (Incidence.kis mesh.faces.incidence (mesh.faces.Selects sides)).rename
        (mesh.faces.kisFace sides) (Surface.kisKey mesh.vertexCount) :=
  Surface.kis_shape hsimple rfl rfl

theorem Polyhedral.mem_kisBlueprint_sites (h : mesh.Polyhedral) (sides : ℕ)
    (height : Float) (key : IndexKey) :
    key ∈ (mesh.kisBlueprint sides height).sites.map Prod.fst ↔
      key ∈ (mesh.kisBlueprint sides height).shape.tails := by
  rw [mem_kisBlueprint_sites_iff, kisBlueprint_shape h.simple,
    Incidence.tails_rename, Incidence.tails_kis h.incidence.toCyclic,
    h.tails_eq, h.faces_eq, Set.image_union, Set.image_image,
    Set.image_image]
  simp only [Surface.kisKey, Set.mem_union, Set.mem_image, Set.mem_ofPred_eq,
    and_assoc]

section Fits

variable (hfits : mesh.Fits) (sides : ℕ)
include hfits

theorem InRange.injOn_kisFace (hrange : mesh.InRange) :
    Set.InjOn (mesh.faces.kisFace sides) (Incidence.kis mesh.faces.incidence
      (mesh.faces.Selects sides)).faces := by
  have hvertex :
      ∀ {v}, v ∈ mesh.faces.incidence.tails → v ≤ IndexKey.maxIndex :=
    hrange.vertex_fits hfits.vertexCount_le
  rw [Incidence.faces_kis]
  rintro _ (⟨⟨i, a, b⟩, ⟨hab, hi⟩, rfl⟩ | ⟨i, ⟨hface, hi⟩, rfl⟩)
    _ (⟨⟨j, c, d⟩, ⟨hcd, hj⟩, rfl⟩ | ⟨j, ⟨hface', hj⟩, rfl⟩) heq
  · obtain ⟨rfl, rfl⟩ :=
      IndexKey.pair_inj (face_fits hfits.faceCount_le
          (Incidence.mem_faces hab)) (hvertex (Incidence.mem_tails hab))
        (face_fits hfits.faceCount_le (Incidence.mem_faces hcd))
        (hvertex (Incidence.mem_tails hcd)) (Sum.inl_injective heq)
    rfl
  · cases heq
  · cases heq
  · obtain ⟨v, w, face, hget, -⟩ := hface
    obtain ⟨v', w', face', hget', -⟩ := hface'
    rw [Surface.selects_iff hget] at hi
    rw [Surface.selects_iff hget'] at hj
    rw [countP_take_inj hget (by simpa using hi) hget' (by simpa using hj)
      (Sum.inr_injective heq)]

theorem InRange.injOn_kisKey
    (hrange : mesh.InRange)
    (hcyclic : mesh.faces.incidence.Cyclic) :
    Set.InjOn (Surface.kisKey mesh.vertexCount) (Incidence.kis
      mesh.faces.incidence (mesh.faces.Selects sides)).tails := by
  have hinjective : ∀ {a b}, a < mesh.vertexCount + mesh.faceCount →
      b < mesh.vertexCount + mesh.faceCount →
      IndexKey.single a = IndexKey.single b → a = b :=
    fun ha hb => IndexKey.single_inj (ha.le.trans hfits) (hb.le.trans hfits)
  have hvertex :
      ∀ {v}, v ∈ mesh.faces.incidence.tails → v < mesh.vertexCount :=
    fun hv => tails_subset hrange hv
  have hface : ∀ {i}, mesh.faces.Selects sides i → i < mesh.faceCount :=
    fun ⟨_, hget, _⟩ => (List.getElem?_eq_some_iff.mp hget).1
  have hapart : ∀ {v i}, v < mesh.vertexCount → i < mesh.faceCount →
      IndexKey.single v ≠ .single (mesh.vertexCount + i) := by
    intro v i hv hi heq
    have hindex := hinjective (by omega) (by omega) heq
    omega
  rw [Incidence.tails_kis hcyclic]
  rintro _ (⟨v, hv, rfl⟩ | ⟨i, ⟨-, hi⟩, rfl⟩) _
    (⟨w, hw, rfl⟩ | ⟨j, ⟨-, hj⟩, rfl⟩) heq
  · rw [hinjective (Nat.lt_add_right _ (hvertex hv))
      (Nat.lt_add_right _ (hvertex hw)) heq]
  · exact absurd heq (hapart (hvertex hv) (hface hj))
  · exact absurd heq.symm (hapart (hvertex hw) (hface hi))
  · have hindex : mesh.vertexCount + i = mesh.vertexCount + j :=
      hinjective (Nat.add_lt_add_left (hface hi) _)
        (Nat.add_lt_add_left (hface hj) _) heq
    rw [Nat.add_left_cancel hindex]

theorem InRange.nodup_kisPolygons
    (hrange : mesh.InRange)
    (hfaces : ∀ face ∈ mesh.faces, face.Nodup ∧ face ≠ []) :
    ∀ keys ∈ mesh.faces.kisPolygons sides, keys.Nodup ∧ keys ≠ [] := by
  intro keys hkeys
  obtain ⟨face, hface, rfl⟩ := List.mem_map.mp hkeys
  have hmem : face ∈ mesh.faces := (List.mem_filter.mp hface).1
  obtain ⟨hsimple, hne⟩ := hfaces face hmem
  have hslot : ∀ v ∈ face, v ≤ IndexKey.maxIndex := by
    intro v hv
    exact hrange.vertex_fits hfits.vertexCount_le
      (Surface.mem_tails_iff.mpr ⟨face, hmem, hv⟩)
  constructor
  · apply hsimple.map_on
    exact fun v hv w hw heq =>
      IndexKey.single_inj (hslot v hv) (hslot w hw) heq
  · exact List.map_eq_nil_iff.not.mpr hne

variable (h : mesh.Polyhedral)
include h

theorem Polyhedral.kisBlueprint_polyhedral (height : Float) :
    (mesh.kisBlueprint sides height).shape.Polyhedral := by
  rw [kisBlueprint_shape h.simple]
  exact (Incidence.kis_polyhedral h.incidence).rename
    (InRange.injOn_kisFace hfits sides h.inRange)
    (InRange.injOn_kisKey hfits sides h.inRange h.incidence.toCyclic)

/-- Kis keeps a mesh polyhedral and its Euler characteristic. -/
theorem Polyhedral.kis (height : Float) :
    ∃ out, mesh.kis sides height = .ok out ∧ out.Polyhedral ∧
      out.eulerCharacteristic = mesh.eulerCharacteristic := by
  have hkis : (Incidence.kis mesh.faces.incidence
      (mesh.faces.Selects sides)).Polyhedral :=
    Incidence.kis_polyhedral h.incidence
  obtain ⟨out, hout, houtPoly, hdouble⟩ :=
    Blueprint.exists_polyhedral (h.kisBlueprint_polyhedral hfits sides
        height) (h.mem_kisBlueprint_sites sides height)
      (InRange.nodup_kisPolygons hfits sides h.inRange fun face hface =>
        ⟨h.simple face hface, h.face_ne_nil hface⟩)
      (Word.prepend 'k' sides mesh.name)
  refine ⟨out, (InRange.kis_eq h.inRange sides height).trans hout, houtPoly,
    ?_⟩
  rw [kisBlueprint_shape h.simple,
    hkis.doubleEuler_rename (InRange.injOn_kisFace hfits sides h.inRange)
      (InRange.injOn_kisKey hfits sides h.inRange h.incidence.toCyclic),
    Incidence.doubleEuler_kis h.incidence.toClosed Surface.finite_flags,
    ← h.two_mul_eulerCharacteristic] at hdouble
  omega

end Fits

end Mesh
end Polyhedra
