import Mathlib
import Polyhedra.Proofs.Incidence.Count
import Polyhedra.Proofs.Operator.Sites

/-!
# Moved faces

A selected face is raised inside its own boundary, and a quadrilateral on
each of its edges joins the old boundary to the new one.  The other faces are
kept.  Inset, extrude and loft move the raised faces differently.
-/

namespace Polyhedra

namespace Incidence

variable {M : Incidence ℕ ℕ} {selected : ℕ → Prop}

/-- The quadrilateral on the edge from `a` to `b` of a selected face `i` and
the raised face; the same edge of a kept face. -/
inductive InsetFlag (M : Incidence ℕ ℕ) (selected : ℕ → Prop) :
    Pattern 6 FaceRole VertexRole
  | outer {i a b} : selected i → M i a b →
      InsetFlag M selected i a b 0 (.ring i a) (.corner a) (.corner b)
  | rise {i a b} : selected i → M i a b →
      InsetFlag M selected i a b 1 (.ring i a) (.corner b) (.inset i b)
  | inner {i a b} : selected i → M i a b →
      InsetFlag M selected i a b 2 (.ring i a) (.inset i b) (.inset i a)
  | fall {i a b} : selected i → M i a b →
      InsetFlag M selected i a b 3 (.ring i a) (.inset i a) (.corner a)
  | raised {i a b} : selected i → M i a b →
      InsetFlag M selected i a b 4 (.raised i) (.inset i a) (.inset i b)
  | kept {i a b} : ¬ selected i → M i a b →
      InsetFlag M selected i a b 5 (.kept i) (.corner a) (.corner b)

def inset (M : Incidence ℕ ℕ) (selected : ℕ → Prop) :
    Incidence FaceRole VertexRole :=
  (InsetFlag M selected).incidence

theorem inset_raised_iff {i : ℕ} (hi : selected i) {v w : VertexRole} :
    inset M selected (.raised i) v w ↔
      ∃ a b, M i a b ∧ .inset i a = v ∧ .inset i b = w := by
  constructor
  · rintro ⟨_, _, _, _, h⟩
    cases h with
    | raised _ hab => exact ⟨_, _, hab, rfl, rfl⟩
  · rintro ⟨a, b, hab, rfl, rfl⟩
    exact Pattern.mem (.raised hi hab)

theorem inset_kept_iff {i : ℕ} (hi : ¬ selected i) {v w : VertexRole} :
    inset M selected (.kept i) v w ↔
      ∃ a b, M i a b ∧ .corner a = v ∧ .corner b = w := by
  constructor
  · rintro ⟨_, _, _, _, h⟩
    cases h with
    | kept _ hab => exact ⟨_, _, hab, rfl, rfl⟩
  · rintro ⟨a, b, hab, rfl, rfl⟩
    exact Pattern.mem (.kept hi hab)

theorem inset_ring_iff
    (hM : M.Cyclic)
    {i a b : ℕ}
    (hi : selected i)
    (hab : M i a b)
    {v w : VertexRole} :
    inset M selected (.ring i a) v w ↔
      (v, w) ∈
        Face.steps [.corner a, .corner b, .inset i b, .inset i a] := by
  have hhead := @hM.head_unique
  rw [Face.mem_steps_four]
  constructor
  · rintro ⟨_, _, _, _, h⟩
    cases h <;> grind
  · rintro (⟨rfl, rfl⟩ | ⟨rfl, rfl⟩ | ⟨rfl, rfl⟩ | ⟨rfl, rfl⟩)
    exacts [Pattern.mem (.outer hi hab), Pattern.mem (.rise hi hab),
      Pattern.mem (.inner hi hab), Pattern.mem (.fall hi hab)]

theorem inset_iff (hM : M.Cyclic) {f : FaceRole} {v w : VertexRole} :
    inset M selected f v w ↔
      ∃ i a b, M i a b ∧
        (selected i ∧ (.ring i a = f ∧ (v, w) ∈
            Face.steps [.corner a, .corner b, .inset i b, .inset i a] ∨
          .raised i = f ∧ .inset i a = v ∧ .inset i b = w) ∨
          ¬ selected i ∧ .kept i = f ∧ .corner a = v ∧ .corner b = w) := by
  constructor
  · rintro ⟨_, _, _, _, h⟩
    have hring : ∀ {i a b}, selected i → M i a b → .ring i a = f →
        (v, w) ∈
          Face.steps [.corner a, .corner b, .inset i b, .inset i a] := by
      rintro i a b hi hab rfl
      exact (inset_ring_iff hM hi hab).mp ⟨_, _, _, _, h⟩
    cases h with
    | outer hi hab | rise hi hab | inner hi hab | fall hi hab =>
        exact ⟨_, _, _, hab, .inl ⟨hi, .inl ⟨rfl, hring hi hab rfl⟩⟩⟩
    | raised hi hab => exact ⟨_, _, _, hab, .inl ⟨hi, .inr ⟨rfl, rfl, rfl⟩⟩⟩
    | kept hi hab => exact ⟨_, _, _, hab, .inr ⟨hi, rfl, rfl, rfl⟩⟩
  · rintro ⟨i, a, b, hab,
      ⟨hi, ⟨rfl, hstep⟩ | ⟨rfl, rfl, rfl⟩⟩ | ⟨hi, rfl, rfl, rfl⟩⟩
    · exact (inset_ring_iff hM hi hab).mpr hstep
    · exact Pattern.mem (.raised hi hab)
    · exact Pattern.mem (.kept hi hab)

theorem inset_wall {i a b : ℕ} (hab : M i a b) :
    inset M selected (.wall selected i a) (.corner a) (.corner b) := by
  by_cases hi : selected i
  · rw [FaceRole.wall_of_selected hi]
    exact Pattern.mem (.outer hi hab)
  · rw [FaceRole.wall_of_not_selected hi]
    exact Pattern.mem (.kept hi hab)

theorem insetFlag_splits (hM : M.Closed) :
    (InsetFlag M selected).Splits M selected := by
  have hhead := @hM.head_unique
  have howner := @hM.owner_unique
  have hseparates : (InsetFlag M selected).Separates := by
    constructor
    · intro i a b place f v w f' v' w' h h'
      cases h <;> cases h' <;> grind
    · intro i a b place i' a' b' place' f v w h h'
      cases h <;> cases h' <;> grind
  apply hseparates.splits
  · intro i a b place f v w h
    cases h <;> simp_all [Fin.ext_iff]
  · intro i a b hi hab place
    fin_cases place
    exacts [⟨_, _, _, .outer hi hab⟩, ⟨_, _, _, .rise hi hab⟩,
      ⟨_, _, _, .inner hi hab⟩, ⟨_, _, _, .fall hi hab⟩,
      ⟨_, _, _, .raised hi hab⟩]
  · exact fun hi hab => ⟨_, _, _, .kept hi hab⟩

/-- The face across every edge of a quadrilateral, of a raised face and of a
kept face.  A quadrilateral lies between the wall on the reverse edge, the
quadrilaterals before and after it in the same face and the raised face. -/
inductive InsetAcross (M : Incidence ℕ ℕ) (selected : ℕ → Prop) :
    FaceRole → VertexRole → FaceRole → Prop
  | outer {i j a b g} : M i a b → M j b a → .wall selected j b = g →
      InsetAcross M selected (.ring i a) (.corner a) g
  | rise {i a b c} : M i a b → M i b c →
      InsetAcross M selected (.ring i a) (.corner b) (.ring i b)
  | inner {i a b} : M i a b →
      InsetAcross M selected (.ring i a) (.inset i b) (.raised i)
  | fall {i z a b} : M i z a → M i a b →
      InsetAcross M selected (.ring i a) (.inset i a) (.ring i z)
  | raised {i a b} : M i a b →
      InsetAcross M selected (.raised i) (.inset i a) (.ring i a)
  | kept {i j a b g} : M i a b → M j b a → .wall selected j b = g →
      InsetAcross M selected (.kept i) (.corner a) g

theorem exists_insetAcross
    (hM : M.Closed)
    {f : FaceRole} {v w : VertexRole}
    (h : inset M selected f v w) :
    ∃ g, InsetAcross M selected f v g ∧ inset M selected g w v := by
  obtain ⟨i, a, b, place, h⟩ := h
  cases h with
  | outer hi hab =>
      obtain ⟨j, -, hba⟩ := hM.mate hab
      exact ⟨_, .outer hab hba rfl, inset_wall hba⟩
  | rise hi hab =>
      obtain ⟨c, hbc⟩ := hM.next hab
      exact ⟨_, .rise hab hbc, Pattern.mem (.fall hi hbc)⟩
  | inner hi hab => exact ⟨_, .inner hab, Pattern.mem (.raised hi hab)⟩
  | fall hi hab =>
      obtain ⟨z, hza⟩ := hM.prev hab
      exact ⟨_, .fall hza hab, Pattern.mem (.rise hi hza)⟩
  | raised hi hab => exact ⟨_, .raised hab, Pattern.mem (.inner hi hab)⟩
  | kept hi hab =>
      obtain ⟨j, -, hba⟩ := hM.mate hab
      exact ⟨_, .kept hab hba rfl, inset_wall hba⟩

theorem InsetAcross.ne
    (hM : M.Closed)
    {f g : FaceRole} {v : VertexRole}
    (h : InsetAcross M selected f v g) : g ≠ f := by
  have hmate := @hM.mate_ne
  rintro rfl
  cases h with
  | outer hab hba hwall | kept hab hba hwall =>
      unfold FaceRole.wall at hwall
      grind
  | rise hab _ => exact hM.ne hab rfl
  | fall hza _ => exact hM.ne hza rfl

/-- Different edges of a face have different faces across. -/
theorem InsetAcross.unique
    (hM : M.Polyhedral)
    {f g : FaceRole}
    {v v' : VertexRole}
    (h : InsetAcross M selected f v g)
    (h' : InsetAcross M selected f v' g) : v = v' := by
  have hhead := @hM.head_unique
  have hlong := @hM.long
  have hmate := @hM.mate_ne
  cases h with
  | kept hab hba hwall =>
      cases h' with
      | kept hab' hba' hwall' =>
          -- the walls of one face, so an edge that two faces of `M` share
          obtain rfl := FaceRole.wall_face_inj (hwall.trans hwall'.symm)
          rw [(hM.edge_unique hab hba hab' hba').1]
  | outer hab hba hwall =>
      unfold FaceRole.wall at hwall
      cases h' <;> grind
  | rise | inner | fall =>
      cases h' with
      | outer _ _ hwall =>
          unfold FaceRole.wall at hwall
          grind
      | _ => grind
  | raised =>
      cases h'
      rfl

theorem inset_closed (hM : M.Closed) : (inset M selected).Closed := by
  have hhead := @hM.head_unique
  have htail := @hM.tail_unique
  have howner := @hM.owner_unique
  have hlong := @hM.long
  have hcyclic : (inset M selected).Cyclic := by
    refine Cyclic.of_isCycle fun f v w h => ?_
    obtain ⟨i, a, b, hab, ⟨hi, ⟨rfl, -⟩ | ⟨rfl, -⟩⟩ | ⟨hi, rfl, -⟩⟩ :=
      (inset_iff hM.toCyclic).mp h
    · have hab' := hM.ne hab
      refine isCycle_of_steps ?_ fun v w => inset_ring_iff hM.toCyclic hi hab
      grind
    · apply (hM.isCycle i).transport fun a v => .inset i a = v
      · intro v w
        exact inset_raised_iff hi
      · exact fun a _ _ => ⟨_, rfl⟩
      · grind
      · grind
    · apply (hM.isCycle i).transport fun a v => .corner a = v
      · intro v w
        exact inset_kept_iff hi
      · exact fun a _ _ => ⟨_, rfl⟩
      · grind
      · grind
  refine hcyclic.closed_of_across ?_ (exists_insetAcross hM) fun h => h.ne hM
  rintro f g v w ⟨i, a, b, place, h⟩ ⟨i', a', b', place', h'⟩
  cases h <;> cases h' <;> grind

/-- Around an input vertex a selected face has two quadrilaterals. -/
theorem inset_fan_corner
    (hM : M.Polyhedral)
    {b : ℕ} {f g : FaceRole} {v w : VertexRole}
    (hf : inset M selected f (.corner b) v)
    (hg : inset M selected g (.corner b) w) :
    Relation.EqvGen ((inset M selected).Around (.corner b)) f g := by
  apply hM.fan_of_selected inset_wall _ _ hf hg
  · intro i a c hi hab hbc
    exact .symm _ _ (.rel _ _
      ⟨_, Pattern.mem (.rise hi hab), Pattern.mem (.fall hi hbc)⟩)
  · rintro f w ⟨_, _, _, _, h⟩
    cases h with
    | outer hi hbc => exact .inl ⟨_, _, hbc, FaceRole.wall_of_selected hi _⟩
    | rise hi hab => exact .inr ⟨_, _, hi, hab, rfl⟩
    | kept hi hbc =>
        exact .inl ⟨_, _, hbc, FaceRole.wall_of_not_selected hi _⟩

/-- At a corner of a raised face there are the face and two
quadrilaterals. -/
theorem inset_fan_inset {i b : ℕ} {f g : FaceRole} {v w : VertexRole}
    (hf : inset M selected f (.inset i b) v)
    (hg : inset M selected g (.inset i b) w) :
    Relation.EqvGen ((inset M selected).Around (.inset i b)) f g := by
  have hcommon : ∀ {f v}, inset M selected f (.inset i b) v →
      Relation.EqvGen ((inset M selected).Around (.inset i b)) f
        (.raised i) := by
    rintro f v ⟨_, _, _, _, hf⟩
    cases hf with
    | inner hi hab =>
        exact .symm _ _ (.rel _ _
          ⟨_, Pattern.mem (.inner hi hab), Pattern.mem (.raised hi hab)⟩)
    | fall hi hbc =>
        exact .rel _ _
          ⟨_, Pattern.mem (.raised hi hbc), Pattern.mem (.inner hi hbc)⟩
    | raised => exact .refl _
  exact eqvGen_of_common (hcommon hf) (hcommon hg)

theorem inset_polyhedral (hM : M.Polyhedral) :
    (inset M selected).Polyhedral where
  toClosed := inset_closed hM.toClosed
  fan {f g v} := by
    intro w w' hf hg
    cases v with
    | corner b => exact inset_fan_corner hM hf hg
    | inset i b => exact inset_fan_inset hf hg
    | _ =>
        obtain ⟨_, _, _, _, hf⟩ := hf
        cases hf
  shared := (inset_closed hM.toClosed).shared_of_across
    (exists_insetAcross hM.toClosed) fun h => h.unique hM

/-! ### Counts -/

theorem tails_inset (hM : M.Closed) :
    (inset M selected).tails =
      VertexRole.corner '' M.tails ∪
      (fun flag => VertexRole.inset flag.1 flag.2.1) ''
      {flag ∈ M.flags | selected flag.1} := by
  ext v
  constructor
  · rintro ⟨f, w, i, a, b, place, h⟩
    cases h with
    | outer _ hab | kept _ hab => exact .inl ⟨a, mem_tails hab, rfl⟩
    | rise _ hab => exact .inl ⟨b, hM.head_mem_tails hab, rfl⟩
    | inner hi hab =>
        obtain ⟨c, hbc⟩ := hM.next hab
        exact .inr ⟨(i, b, c), ⟨hbc, hi⟩, rfl⟩
    | fall hi hab | raised hi hab => exact .inr ⟨(i, a, b), ⟨hab, hi⟩, rfl⟩
  · rintro (⟨a, ⟨i, b, hab⟩, rfl⟩ | ⟨⟨i, a, b⟩, ⟨hab, hi⟩, rfl⟩)
    · exact ⟨_, _, inset_wall hab⟩
    · exact ⟨_, _, Pattern.mem (.raised hi hab)⟩

theorem faces_inset :
    (inset M selected).faces =
      (fun flag => FaceRole.ring flag.1 flag.2.1) ''
      {flag ∈ M.flags | selected flag.1} ∪
      (FaceRole.raised '' {i ∈ M.faces | selected i} ∪ FaceRole.kept ''
        {i ∈ M.faces | ¬ selected i}) := by
  ext f
  constructor
  · rintro ⟨v, w, i, a, b, place, h⟩
    cases h with
    | outer hi hab | rise hi hab | inner hi hab | fall hi hab =>
        exact .inl ⟨(i, a, b), ⟨hab, hi⟩, rfl⟩
    | raised hi hab => exact .inr (.inl ⟨i, ⟨mem_faces hab, hi⟩, rfl⟩)
    | kept hi hab => exact .inr (.inr ⟨i, ⟨mem_faces hab, hi⟩, rfl⟩)
  · rintro (⟨⟨i, a, b⟩, ⟨hab, hi⟩, rfl⟩ | ⟨i, ⟨⟨a, b, hab⟩, hi⟩, rfl⟩ |
      ⟨i, ⟨⟨a, b, hab⟩, hi⟩, rfl⟩)
    · exact ⟨_, _, Pattern.mem (.outer hi hab)⟩
    · exact ⟨_, _, Pattern.mem (.raised hi hab)⟩
    · exact ⟨_, _, Pattern.mem (.kept hi hab)⟩

/-- A role for every corner of every selected face. -/
theorem Closed.injOn_selected
    (hM : M.Closed)
    {α : Type} {role : ℕ → ℕ → α}
    (hrole : ∀ f v f' v', role f v = role f' v' → f = f' ∧ v = v') :
    Set.InjOn (fun flag => role flag.1 flag.2.1)
      {flag ∈ M.flags | selected flag.1} :=
  (hM.injOn_corner hrole).mono fun _ hflag => hflag.1

theorem ncard_tails_inset
    (hM : M.Closed)
    (hfinite : M.flags.Finite) :
    (inset M selected).tails.ncard =
      M.tails.ncard + {flag ∈ M.flags | selected flag.1}.ncard := by
  have hselected : {flag ∈ M.flags | selected flag.1}.Finite :=
    hfinite.subset fun _ hflag => hflag.1
  rw [tails_inset hM,
    ncard_image_union (finite_tails hfinite) (hselected.image _),
    (hM.injOn_selected _).ncard_image]
  all_goals grind [Set.InjOn]

theorem ncard_faces_inset
    (hM : M.Closed)
    (hfinite : M.flags.Finite) :
    (inset M selected).faces.ncard =
      {flag ∈ M.flags | selected flag.1}.ncard + M.faces.ncard := by
  have hflags : {flag ∈ M.flags | selected flag.1}.Finite :=
    hfinite.subset fun _ hflag => hflag.1
  have hselected : {i ∈ M.faces | selected i}.Finite :=
    (finite_faces hfinite).subset fun _ hi => hi.1
  have hkept : {i ∈ M.faces | ¬ selected i}.Finite :=
    (finite_faces hfinite).subset fun _ hi => hi.1
  rw [faces_inset,
    ncard_image_union hflags ((hselected.image _).union (hkept.image _))
      (hM.injOn_selected _), ncard_image_union hselected (hkept.image _),
    Set.ncard_image_of_injective, ncard_sep_add (finite_faces hfinite)]
  all_goals grind [Function.Injective, Set.InjOn]

theorem ncard_flags_inset
    (hM : M.Closed)
    (hfinite : M.flags.Finite) :
    (inset M selected).flags.ncard =
      M.flags.ncard + 4 * {flag ∈ M.flags | selected flag.1}.ncard := by
  have hsplits : (InsetFlag M selected).Splits M selected :=
    insetFlag_splits hM
  have hflags := hsplits.ncard_flags hfinite
  have hsplit := ncard_sep_add hfinite fun flag => selected flag.1
  change (inset M selected).flags.ncard = _ at hflags
  omega

theorem doubleEuler_inset
    (hM : M.Closed)
    (hfinite : M.flags.Finite) :
    (inset M selected).doubleEuler = M.doubleEuler := by
  unfold doubleEuler
  rw [ncard_tails_inset hM hfinite, ncard_faces_inset hM hfinite,
    ncard_flags_inset hM hfinite]
  push_cast
  ring

end Incidence

theorem Surface.mem_insetFlags_iff {surface : Surface}
    (hsimple : ∀ face ∈ surface, face.Nodup)
    {sides : ℕ} {f : FaceRole} {v w : VertexRole} :
    ⟨f, v, w⟩ ∈ surface.insetFlags sides ↔
      Incidence.inset surface.incidence (surface.Selects sides) f v w := by
  rw [Incidence.inset_iff (cyclic_of_nodup hsimple)]
  simp only [insetFlags, List.mem_flatMap, Prod.exists, mem_indexed_iff]
  constructor
  · rintro ⟨face, i, hface, h⟩
    by_cases hi : Face.passes sides face.length = true
    · rw [if_pos hi] at h
      simp only [List.mem_flatMap, List.mem_append, List.mem_singleton,
        Flag.mk.injEq, Prod.exists, Flag.mem_around_iff] at h
      obtain ⟨a, b, harrival, h⟩ := h
      refine ⟨i, a, b, exists_arrival_iff.mp ⟨face, hface, harrival⟩,
        .inl ⟨(selects_iff hface).mpr hi, h.imp_right ?_⟩⟩
      exact fun ⟨hf, hv, hw⟩ => ⟨hf.symm, hv.symm, hw.symm⟩
    · rw [if_neg hi] at h
      simp only [List.mem_map, Flag.mk.injEq, Prod.exists] at h
      obtain ⟨a, b, harrival, h⟩ := h
      exact ⟨i, a, b, exists_arrival_iff.mp ⟨face, hface, harrival⟩,
        .inr ⟨mt (selects_iff hface).mp hi, h⟩⟩
  · rintro ⟨i, a, b, hab, h⟩
    obtain ⟨face, hface, harrival⟩ := exists_arrival_iff.mpr hab
    rw [selects_iff hface] at h
    refine ⟨face, i, hface, ?_⟩
    rcases h with ⟨hi, h⟩ | ⟨hi, h⟩
    · rw [if_pos hi]
      simp only [List.mem_flatMap, List.mem_append, List.mem_singleton,
        Flag.mk.injEq, Prod.exists, Flag.mem_around_iff]
      refine ⟨a, b, harrival, h.imp_right ?_⟩
      exact fun ⟨hf, hv, hw⟩ => ⟨hf.symm, hv.symm, hw.symm⟩
    · rw [if_neg hi]
      simp only [List.mem_map, Flag.mk.injEq, Prod.exists]
      exact ⟨a, b, harrival, h⟩

namespace Mesh

variable {mesh : Mesh}

theorem mem_insetSites_iff {sides : ℕ} {fraction offset : Float}
    {role : VertexRole} :
    role ∈ (mesh.insetSites sides fraction offset).map Prod.fst ↔
      ∃ flag ∈ {flag ∈ mesh.faces.incidence.flags |
        mesh.faces.Selects sides flag.1}, .inset flag.1 flag.2.1 = role := by
  simp only [insetSites, List.mem_map, List.mem_flatMap, Prod.exists,
    Surface.mem_indexed_iff]
  constructor
  · rintro ⟨_, _, ⟨face, i, hface, hsite⟩, rfl⟩
    by_cases hi : Face.passes sides face.length = true
    · rw [if_pos hi, List.mem_map] at hsite
      obtain ⟨v, hv, heq⟩ := hsite
      obtain ⟨w, hvw⟩ := Surface.exists_incidence_iff.mpr ⟨face, hface, hv⟩
      exact ⟨i, v, w, ⟨hvw, (Surface.selects_iff hface).mpr hi⟩,
        congrArg Prod.fst heq⟩
    · rw [if_neg hi] at hsite
      cases hsite
  · rintro ⟨i, v, w, ⟨hvw, face, hface, hi⟩, rfl⟩
    obtain ⟨face', hface', hv⟩ := Surface.exists_incidence_iff.mp ⟨w, hvw⟩
    obtain rfl := Option.some.inj (hface.symm.trans hface')
    let center := mesh.faceCenter face
    let normal := mesh.faceNormal face
    refine ⟨.inset i v, (mesh.position v).tween center fraction + normal *
      offset, ⟨face, i, hface, ?_⟩, rfl⟩
    rw [if_pos hi]
    exact List.mem_map_of_mem hv

/-- Moving faces keeps a mesh polyhedral and its Euler characteristic. -/
theorem Polyhedral.moveFaces
    (h : mesh.Polyhedral)
    (sides : ℕ) (fraction offset : Float) (name : String) :
    ∃ out, mesh.moveFaces sides fraction offset name = .ok out ∧
      out.Polyhedral ∧
      out.eulerCharacteristic = mesh.eulerCharacteristic := by
  have hpoly := h.incidence
  have hsites : ∀ role, role ∈
        (mesh.cornerSites ++ mesh.insetSites sides fraction offset).map
          Prod.fst ↔
      role ∈
        (Incidence.inset mesh.faces.incidence
          (mesh.faces.Selects sides)).tails := by
    intro role
    rw [Incidence.tails_inset hpoly.toClosed, List.map_append,
      List.mem_append, mem_cornerSites_iff, mem_insetSites_iff, h.tails_eq]
    rfl
  exact h.labelled (Incidence.inset_polyhedral hpoly)
    (Incidence.doubleEuler_inset hpoly.toClosed Surface.finite_flags)
    (fun _ _ _ => Surface.mem_insetFlags_iff h.simple) hsites name

end Mesh
end Polyhedra
