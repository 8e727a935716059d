import Mathlib
import Polyhedra.Proofs.Incidence.Count
import Polyhedra.Proofs.Operator.Sites

/-!
# Quinto

Every face keeps a smaller copy with one corner on each of its sides, and
every corner of it gets a pentagon.  The midpoint of an edge is a vertex of
four pentagons.
-/

namespace Polyhedra

namespace Incidence

variable {M : Incidence ℕ ℕ}

/-- The pentagon of the face `i` at its corner `b`, where `a` comes before
`b` and `c` after it, and the copy of the face. -/
inductive QuintoFlag (M : Incidence ℕ ℕ) : Pattern 6 IndexRole IndexRole
  | depart {i a b} : M i a b →
      QuintoFlag M i a b 0 (.pair i b) (.side i s(a, b)) (.edge s(a, b))
  | approach {i a b} :
      M i a b → QuintoFlag M i a b 1 (.pair i b) (.edge s(a, b)) (.single b)
  | leave {i b c} :
      M i b c → QuintoFlag M i b c 2 (.pair i b) (.single b) (.edge s(b, c))
  | enter {i b c} : M i b c →
      QuintoFlag M i b c 3 (.pair i b) (.edge s(b, c)) (.side i s(b, c))
  | back {i a b c} : M i a b → M i b c →
      QuintoFlag M i a b 4 (.pair i b) (.side i s(b, c)) (.side i s(a, b))
  | turn {i a b c} : M i a b → M i b c →
      QuintoFlag M i a b 5 (.single i) (.side i s(a, b)) (.side i s(b, c))

def quinto (M : Incidence ℕ ℕ) : Incidence IndexRole IndexRole :=
  (QuintoFlag M).incidence

theorem quinto_copy_iff {i : ℕ} {v w : IndexRole} :
    quinto M (.single i) v w ↔
      ∃ a b c, M i a b ∧ M i b c ∧ .side i s(a, b) = v ∧
        .side i s(b, c) = w := by
  constructor
  · rintro ⟨_, _, _, _, h⟩
    cases h with
    | turn hab hbc => exact ⟨_, _, _, hab, hbc, rfl, rfl⟩
  · rintro ⟨a, b, c, hab, hbc, rfl, rfl⟩
    exact Pattern.mem (.turn hab hbc)

theorem quinto_pair_iff
    (hM : M.Cyclic)
    {i a b c : ℕ}
    (hab : M i a b)
    (hbc : M i b c)
    {v w : IndexRole} :
    quinto M (.pair i b) v w ↔
      (v, w) ∈
        Face.steps [.side i s(a, b), .edge s(a, b), .single b, .edge s(b, c),
          .side i s(b, c)] := by
  have hhead := @hM.head_unique
  have htail := @hM.tail_unique
  rw [Face.mem_steps_five]
  constructor
  · rintro ⟨_, _, _, _, h⟩
    cases h <;> grind
  · rintro (⟨rfl, rfl⟩ | ⟨rfl, rfl⟩ | ⟨rfl, rfl⟩ | ⟨rfl, rfl⟩ | ⟨rfl, rfl⟩)
    exacts [Pattern.mem (.depart hab), Pattern.mem (.approach hab),
      Pattern.mem (.leave hbc), Pattern.mem (.enter hbc),
      Pattern.mem (.back hab hbc)]

theorem quinto_iff (hM : M.Cyclic) {f : IndexRole} {v w : IndexRole} :
    quinto M f v w ↔
      ∃ i a b c, M i a b ∧ M i b c ∧
        (.pair i b = f ∧ (v, w) ∈ Face.steps [.side i s(a, b), .edge s(a, b),
          .single b, .edge s(b, c), .side i s(b, c)] ∨
          .single i = f ∧ .side i s(a, b) = v ∧ .side i s(b, c) = w) := by
  constructor
  · rintro ⟨_, _, _, _, h⟩
    obtain ⟨i, a, b, c, hab, hbc, hf⟩ : ∃ i a b c, M i a b ∧ M i b c ∧
        (.pair i b = f ∨
          .single i = f ∧ .side i s(a, b) = v ∧ .side i s(b, c) = w) := by
      cases h with
      | turn hab hbc => exact ⟨_, _, _, _, hab, hbc, .inr ⟨rfl, rfl, rfl⟩⟩
      | depart hab | approach hab =>
          obtain ⟨c, hbc⟩ := hM.next hab
          exact ⟨_, _, _, _, hab, hbc, .inl rfl⟩
      | leave hbc | enter hbc =>
          obtain ⟨a, hab⟩ := hM.prev hbc
          exact ⟨_, _, _, _, hab, hbc, .inl rfl⟩
      | back hab hbc => exact ⟨_, _, _, _, hab, hbc, .inl rfl⟩
    refine ⟨i, a, b, c, hab, hbc, hf.imp_left ?_⟩
    rintro rfl
    exact ⟨rfl, (quinto_pair_iff hM hab hbc).mp ⟨_, _, _, _, h⟩⟩
  · rintro ⟨i, a, b, c, hab, hbc, ⟨rfl, hstep⟩ | ⟨rfl, rfl, rfl⟩⟩
    · exact (quinto_pair_iff hM hab hbc).mpr hstep
    · exact quinto_copy_iff.mpr ⟨a, b, c, hab, hbc, rfl, rfl⟩

theorem quintoFlag_fills (hM : M.Closed) : (QuintoFlag M).Fills M where
  base h := by cases h <;> assumption
  fill := by
    intro i a b hab place
    obtain ⟨c, hbc⟩ := hM.next hab
    fin_cases place
    exacts [⟨_, _, _, .depart hab⟩, ⟨_, _, _, .approach hab⟩,
      ⟨_, _, _, .leave hab⟩, ⟨_, _, _, .enter hab⟩, ⟨_, _, _, .back hab hbc⟩,
      ⟨_, _, _, .turn hab hbc⟩]
  unique := by
    have hhead := @hM.head_unique
    intro i a b place f v w f' v' w' h h'
    cases h <;> cases h' <;> grind
  apart := by
    have hhead := @hM.head_unique
    have htail := @hM.tail_unique
    have hne := @hM.ne
    have hlong := @hM.long
    intro i a b place i' a' b' place' f v w h h'
    generalize hv : v = v', hw : w = w' at h'
    cases h <;> cases h' <;> grind [Sym2.eq_iff]

/-- The face across every edge of a pentagon and of a copy.  A pentagon lies
between its neighbours in the same face, the pentagons at the same corner in
the faces beyond the edges before and after it, and the copy. -/
inductive QuintoAcross (M : Incidence ℕ ℕ) :
    IndexRole → IndexRole → IndexRole → Prop
  | depart {i z a b} : M i z a → M i a b →
      QuintoAcross M (.pair i b) (.side i s(a, b)) (.pair i a)
  | approach {i j a b} : M i a b → M j b a →
      QuintoAcross M (.pair i b) (.edge s(a, b)) (.pair j b)
  | leave {i j b c} : M i b c → M j c b →
      QuintoAcross M (.pair i b) (.single b) (.pair j b)
  | enter {i b c d} : M i b c → M i c d →
      QuintoAcross M (.pair i b) (.edge s(b, c)) (.pair i c)
  | back {i a b c} : M i a b → M i b c →
      QuintoAcross M (.pair i b) (.side i s(b, c)) (.single i)
  | turn {i a b c} : M i a b → M i b c →
      QuintoAcross M (.single i) (.side i s(a, b)) (.pair i b)

theorem exists_quintoAcross
    (hM : M.Closed)
    {f v w : IndexRole}
    (h : quinto M f v w) :
    ∃ g, QuintoAcross M f v g ∧ quinto M g w v := by
  obtain ⟨i, a, b, place, h⟩ := h
  cases h with
  | depart hab =>
      obtain ⟨z, hza⟩ := hM.prev hab
      exact ⟨_, .depart hza hab, Pattern.mem (.enter hab)⟩
  | approach hab =>
      obtain ⟨j, -, hba⟩ := hM.mate hab
      refine ⟨_, .approach hab hba, ?_⟩
      rw [Sym2.eq_swap]
      exact Pattern.mem (.leave hba)
  | leave hbc =>
      obtain ⟨j, -, hcb⟩ := hM.mate hbc
      refine ⟨_, .leave hbc hcb, ?_⟩
      rw [Sym2.eq_swap]
      exact Pattern.mem (.approach hcb)
  | enter hbc =>
      obtain ⟨d, hcd⟩ := hM.next hbc
      exact ⟨_, .enter hbc hcd, Pattern.mem (.depart hbc)⟩
  | back hab hbc => exact ⟨_, .back hab hbc, Pattern.mem (.turn hab hbc)⟩
  | turn hab hbc => exact ⟨_, .turn hab hbc, Pattern.mem (.back hab hbc)⟩

theorem QuintoAcross.ne
    (hM : M.Closed)
    {f g v : IndexRole}
    (h : QuintoAcross M f v g) : g ≠ f := by
  have hmate := @hM.mate_ne
  rintro rfl
  cases h with
  | depart _ hab => exact hM.ne hab rfl
  | approach hab hba => exact hmate hab hba rfl
  | leave hbc hcb => exact hmate hbc hcb rfl
  | enter hbc _ => exact hM.ne hbc rfl

/-- Different edges of a face have different faces across. -/
theorem QuintoAcross.unique
    (hM : M.Polyhedral)
    {f g v v' : IndexRole}
    (h : QuintoAcross M f v g)
    (h' : QuintoAcross M f v' g) : v = v' := by
  have hhead := @hM.head_unique
  have htail := @hM.tail_unique
  have hne := @hM.ne
  have hlong := @hM.long
  have hmate := @hM.mate_ne
  cases h with
  | approach hab hba =>
      cases h' with
      | leave hbc hcb =>
          -- one face across the edges before and after the corner `b`
          exact absurd hba (hM.degree hab hbc hcb)
      | _ => grind
  | leave hbc hcb =>
      cases h' with
      | approach hab hba => exact absurd hba (hM.degree hab hbc hcb)
      | _ => grind
  | depart | enter | back | turn => cases h' <;> grind

theorem quinto_closed (hM : M.Closed) : (quinto M).Closed := by
  have hhead := @hM.head_unique
  have htail := @hM.tail_unique
  have howner := @hM.owner_unique
  have hne := @hM.ne
  have hlong := @hM.long
  have hcyclic : (quinto M).Cyclic := by
    refine Cyclic.of_isCycle fun f v w h => ?_
    obtain ⟨i, a, b, c, hab, hbc, ⟨rfl, -⟩ | ⟨rfl, -⟩⟩ :=
      (quinto_iff hM.toCyclic).mp h
    · refine isCycle_of_steps ?_
        fun v w => quinto_pair_iff hM.toCyclic hab hbc
      grind [Sym2.eq_iff]
    · apply (hM.isCycle i).transport
        fun a v => ∃ b, M i a b ∧ .side i s(a, b) = v
      · intro v w
        rw [quinto_copy_iff]
        grind
      · exact fun a b hab => ⟨_, b, hab, rfl⟩
      · grind
      · grind [Sym2.eq_iff]
  refine hcyclic.closed_of_across ?_ (exists_quintoAcross hM)
    fun h => h.ne hM
  rintro f g v w ⟨i, a, b, place, h⟩ ⟨i', a', b', place', h'⟩
  generalize hv : v = v', hw : w = w' at h'
  cases h <;> cases h' <;> grind [Sym2.eq_iff]

/-- The pentagons around an input vertex follow the faces around it. -/
theorem quinto_fan_single
    (hM : M.Polyhedral)
    {b : ℕ}
    {f g v w : IndexRole}
    (hf : quinto M f (.single b) v)
    (hg : quinto M g (.single b) w) :
    Relation.EqvGen ((quinto M).Around (.single b)) f g := by
  apply hM.fan_of_map b (.pair · b) _ _ hf hg
  · intro i j w hj hi
    have hleave : quinto M (.pair j b) (.single b) (.edge s(w, b)) := by
      rw [Sym2.eq_swap]
      exact Pattern.mem (.leave hj)
    exact .rel _ _ ⟨_, hleave, Pattern.mem (.approach hi)⟩
  · rintro f w ⟨_, _, _, _, h⟩
    cases h with
    | leave hbc => exact ⟨_, _, hbc, rfl⟩

/-- At the midpoint of an edge there are two pentagons of either face. -/
theorem quinto_fan_edge
    (hM : M.Closed)
    {e : Sym2 ℕ} {f g : IndexRole} {v w : IndexRole}
    (hf : quinto M f (.edge e) v)
    (hg : quinto M g (.edge e) w) :
    Relation.EqvGen ((quinto M).Around (.edge e)) f g := by
  obtain ⟨i, a, b, hab, rfl⟩ : ∃ i a b, M i a b ∧ e = s(a, b) := by
    obtain ⟨_, _, _, _, hf⟩ := hf
    cases hf with
    | approach hab | enter hab => exact ⟨_, _, _, hab, rfl⟩
  obtain ⟨j, -, hba⟩ := hM.mate hab
  have hleave : quinto M (.pair j b) (.single b) (.edge s(a, b)) := by
    rw [Sym2.eq_swap]
    exact Pattern.mem (.leave hba)
  have happroach : quinto M (.pair j a) (.edge s(a, b)) (.single a) := by
    rw [Sym2.eq_swap]
    exact Pattern.mem (.approach hba)
  have hhead : Relation.EqvGen ((quinto M).Around (.edge s(a, b)))
      (.pair j b) (.pair i b) :=
    .rel _ _ ⟨_, Pattern.mem (.approach hab), hleave⟩
  have hside : Relation.EqvGen ((quinto M).Around (.edge s(a, b)))
      (.pair i a) (.pair i b) :=
    .symm _ _
      (.rel _ _ ⟨_, Pattern.mem (.enter hab), Pattern.mem (.depart hab)⟩)
  have htail : Relation.EqvGen ((quinto M).Around (.edge s(a, b)))
      (.pair j a) (.pair i a) :=
    .symm _ _ (.rel _ _ ⟨_, happroach, Pattern.mem (.leave hab)⟩)
  have hcommon : ∀ {f x v}, quinto M f x v → .edge s(a, b) = x →
      Relation.EqvGen ((quinto M).Around (.edge s(a, b))) f (.pair i b) := by
    rintro f x v ⟨_, _, _, _, hf⟩ hv
    cases hf with
    | approach h =>
        rcases Sym2.eq_iff.mp (IndexRole.edge.inj hv) with ⟨rfl, rfl⟩ |
          ⟨rfl, rfl⟩
        · rw [hM.owner_unique h hab]
          exact .refl _
        · rw [hM.owner_unique h hba]
          exact htail.trans _ _ _ hside
    | enter h =>
        rcases Sym2.eq_iff.mp (IndexRole.edge.inj hv) with ⟨rfl, rfl⟩ |
          ⟨rfl, rfl⟩
        · rw [hM.owner_unique h hab]
          exact hside
        · rw [hM.owner_unique h hba]
          exact hhead
    | _ => cases hv
  exact eqvGen_of_common (hcommon hf rfl) (hcommon hg rfl)

/-- At a corner of a copy there are the copy and two pentagons. -/
theorem quinto_fan_side
    (hM : M.Closed)
    {i : ℕ} {e : Sym2 ℕ} {f g : IndexRole} {v w : IndexRole}
    (hf : quinto M f (.side i e) v)
    (hg : quinto M g (.side i e) w) :
    Relation.EqvGen ((quinto M).Around (.side i e)) f g := by
  have hlong := @hM.long
  obtain ⟨a, b, hab, rfl⟩ : ∃ a b, M i a b ∧ e = s(a, b) := by
    obtain ⟨_, _, _, _, hf⟩ := hf
    cases hf with
    | depart hab | back _ hab | turn hab _ => exact ⟨_, _, hab, rfl⟩
  obtain ⟨z, hza⟩ := hM.prev hab
  have hsame : ∀ {c d}, M i c d → s(a, b) = s(c, d) → a = c ∧ b = d := by
    intro c d hcd heq
    rcases Sym2.eq_iff.mp heq with h | ⟨rfl, rfl⟩
    · exact h
    · exact absurd rfl (hlong hab hcd)
  have hcommon : ∀ {f x v}, quinto M f x v → .side i s(a, b) = x →
      Relation.EqvGen ((quinto M).Around (.side i s(a, b))) f
        (.pair i a) := by
    rintro f x v ⟨_, _, _, _, hf⟩ hv
    cases hf with
    | depart h =>
        obtain ⟨rfl, heq⟩ := IndexRole.side.inj hv
        obtain ⟨rfl, rfl⟩ := hsame h heq
        exact .symm _ _
          (.rel _ _ ⟨_, Pattern.mem (.depart hab), Pattern.mem (.enter hab)⟩)
    | back _ h =>
        obtain ⟨rfl, heq⟩ := IndexRole.side.inj hv
        obtain ⟨rfl, rfl⟩ := hsame h heq
        exact .refl _
    | turn h _ =>
        obtain ⟨rfl, heq⟩ := IndexRole.side.inj hv
        exact .rel _ _
          ⟨_, Pattern.mem (.back hza hab), Pattern.mem (.turn hza hab)⟩
    | _ => cases hv
  exact eqvGen_of_common (hcommon hf rfl) (hcommon hg rfl)

theorem quinto_polyhedral (hM : M.Polyhedral) : (quinto M).Polyhedral where
  toClosed := quinto_closed hM.toClosed
  fan {f g v} := by
    intro w w' hf hg
    cases v with
    | single b => exact quinto_fan_single hM hf hg
    | edge e => exact quinto_fan_edge hM.toClosed hf hg
    | side i e => exact quinto_fan_side hM.toClosed hf hg
    | pair a b =>
        obtain ⟨_, _, _, _, hf⟩ := hf
        cases hf
  shared := (quinto_closed hM.toClosed).shared_of_across
    (exists_quintoAcross hM.toClosed) fun h => h.unique hM

/-! ### Counts -/

theorem tails_quinto :
    (quinto M).tails =
      IndexRole.single '' M.tails ∪
      (IndexRole.edge '' M.sides ∪
        (fun flag => IndexRole.side flag.1 s(flag.2.1, flag.2.2)) ''
        M.flags) := by
  ext v
  constructor
  · rintro ⟨f, w, i, a, b, place, h⟩
    cases h with
    | depart hab | turn hab _ => exact .inr (.inr ⟨(i, a, b), hab, rfl⟩)
    | approach hab | enter hab =>
        exact .inr (.inl ⟨s(a, b), ⟨i, a, b, hab, rfl⟩, rfl⟩)
    | leave hbc => exact .inl ⟨a, mem_tails hbc, rfl⟩
    | @back _ _ _ c _ hbc => exact .inr (.inr ⟨(i, b, c), hbc, rfl⟩)
  · rintro (⟨b, ⟨i, c, hbc⟩, rfl⟩ | ⟨_, ⟨i, a, b, hab, rfl⟩, rfl⟩ |
      ⟨⟨i, a, b⟩, hab, rfl⟩)
    · exact ⟨_, _, Pattern.mem (.leave hbc)⟩
    · exact ⟨_, _, Pattern.mem (.approach hab)⟩
    · exact ⟨_, _, Pattern.mem (.depart hab)⟩

theorem quinto_copiesAndRings (hM : M.Closed) :
    (quinto M).CopiesAndRings M IndexRole.single IndexRole.pair where
  face := by
    rintro f v w ⟨i, a, b, place, h⟩
    cases h with
    | turn hab _ => exact .inl ⟨i, mem_faces hab, rfl⟩
    | depart hab | approach hab | back hab _ =>
        obtain ⟨c, hbc⟩ := hM.next hab
        exact .inr ⟨i, b, c, hbc, rfl⟩
    | leave hbc | enter hbc => exact .inr ⟨i, a, b, hbc, rfl⟩
  copy_mem hab := by
    obtain ⟨c, hbc⟩ := hM.next hab
    exact ⟨_, _, Pattern.mem (.turn hab hbc)⟩
  ring_mem hbc := ⟨_, _, Pattern.mem (.leave hbc)⟩
  copy_inj := IndexRole.single.inj
  ring_inj _ _ _ _ := IndexRole.pair.inj
  copy_ne_ring _ _ _ := nofun

theorem ncard_tails_quinto
    (hM : M.Closed)
    (hfinite : M.flags.Finite) :
    (quinto M).tails.ncard =
      M.tails.ncard + (M.sides.ncard + M.flags.ncard) := by
  rw [tails_quinto, ncard_image_union (finite_tails hfinite)
      (((finite_sides hfinite).image _).union (hfinite.image _)),
    ncard_image_union (finite_sides hfinite) (hfinite.image _),
    (hM.injOn_side _).ncard_image]
  all_goals grind [Set.InjOn]

theorem doubleEuler_quinto
    (hM : M.Closed)
    (hfinite : M.flags.Finite) :
    (quinto M).doubleEuler = M.doubleEuler := by
  have hsides := hM.two_mul_ncard_sides hfinite
  have hflags : (quinto M).flags.ncard = 6 * M.flags.ncard :=
    (quintoFlag_fills hM).ncard_flags
  unfold doubleEuler
  rw [ncard_tails_quinto hM hfinite,
    (quinto_copiesAndRings hM).ncard_faces hM.toCyclic hfinite, hflags,
    ← hsides]
  push_cast
  ring

end Incidence

theorem Surface.mem_quintoFlags_iff {surface : Surface}
    (hsimple : ∀ face ∈ surface, face.Nodup)
    {f v w : IndexKey} :
    ⟨f, v, w⟩ ∈ surface.quintoFlags ↔
      (Incidence.quinto surface.incidence).rename IndexRole.key IndexRole.key
        f v w := by
  simp only [Incidence.rename,
    Incidence.quinto_iff (cyclic_of_nodup hsimple), quintoFlags,
    List.mem_flatMap, List.mem_append, List.mem_singleton, Flag.mk.injEq,
    Prod.exists, mem_indexed_iff, Flag.mem_around_iff]
  have hkeys : ∀ i a b c : ℕ,
      [IndexKey.side i a b, .edge a b, .single b, .edge b c, .side i b c] =
        [IndexRole.side i s(a, b), .edge s(a, b), .single b, .edge s(b, c),
          .side i s(b, c)].map IndexRole.key :=
    fun _ _ _ _ => rfl
  simp only [hkeys, Face.steps_map]
  constructor
  · rintro ⟨face, i, hface, a, b, c, htriple, h⟩
    obtain ⟨hab, hbc⟩ :=
      (exists_triple_iff hsimple).mp ⟨face, hface, htriple⟩
    rcases h with ⟨rfl, hstep⟩ | ⟨rfl, rfl, rfl⟩
    · obtain ⟨⟨x, y⟩, hxy, heq⟩ := List.mem_map.mp hstep
      cases heq
      exact ⟨_, x, y, ⟨i, a, b, c, hab, hbc, .inl ⟨rfl, hxy⟩⟩, rfl, rfl, rfl⟩
    · exact ⟨_, _, _, ⟨i, a, b, c, hab, hbc, .inr ⟨rfl, rfl, rfl⟩⟩, rfl, rfl,
        rfl⟩
  · rintro ⟨_, x, y, ⟨i, a, b, c, hab, hbc, h⟩, rfl, rfl, rfl⟩
    obtain ⟨face, hface, htriple⟩ :=
      (exists_triple_iff hsimple).mpr ⟨hab, hbc⟩
    refine ⟨face, i, hface, a, b, c, htriple, ?_⟩
    rcases h with ⟨rfl, hstep⟩ | ⟨rfl, rfl, rfl⟩
    · exact .inl ⟨rfl, List.mem_map_of_mem hstep⟩
    · exact .inr ⟨rfl, rfl, rfl⟩

namespace Mesh

variable {mesh : Mesh}

/-- The points of quinto by their roles. -/
def pentagonSites (mesh : Mesh) : List (IndexRole × Point) :=
  mesh.faces.indexed.flatMap fun (face, i) =>
    face.triples.flatMap fun (a, b, _) =>
    [ (.edge s(a, b), mesh.edgeMidpoint a b), (.side i s(a, b),
        (mesh.edgeMidpoint a b).midpoint (mesh.faceCenter face)),
      (.single b, mesh.position b) ]

theorem quintoSites_eq (mesh : Mesh) :
    mesh.quintoSites =
      mesh.pentagonSites.map fun (role, p) => (role.key, p) := by
  simp only [quintoSites, pentagonSites, List.map_flatMap, List.map_cons,
    List.map_nil]
  rfl

theorem mem_pentagonSites
    (hsimple : ∀ face ∈ mesh.faces, face.Nodup)
    {role : IndexRole} {p : Point} :
    (role, p) ∈ mesh.pentagonSites ↔
      ∃ i face a b, mesh.faces[i]? = some face ∧ (a, b) ∈ face.edges ∧
        (.edge s(a, b) = role ∧ mesh.edgeMidpoint a b = p ∨
          .side i s(a, b) = role ∧
          (mesh.edgeMidpoint a b).midpoint (mesh.faceCenter face) = p ∨
          .single b = role ∧ mesh.position b = p) := by
  simp only [pentagonSites, List.mem_flatMap, Prod.exists,
    Surface.mem_indexed_iff, List.mem_cons, Prod.mk.injEq, List.not_mem_nil,
    or_false, eq_comm (a := role), eq_comm (a := p)]
  exact Surface.exists_edge_iff hsimple

theorem pentagonSites_eq
    (hsimple : ∀ face ∈ mesh.faces, face.Nodup)
    (hclosed : mesh.faces.incidence.Closed) :
    {role | role ∈ mesh.pentagonSites.map Prod.fst} =
      (Incidence.quinto mesh.faces.incidence).tails := by
  ext role
  rw [Set.mem_ofPred_eq, List.mem_map, Incidence.tails_quinto]
  constructor
  · rintro ⟨⟨_, p⟩, hsite, rfl⟩
    obtain ⟨i, face, a, b, hface, hab, hrole⟩ :=
      (mem_pentagonSites hsimple).mp hsite
    rcases hrole with ⟨rfl, -⟩ | ⟨rfl, -⟩ | ⟨rfl, -⟩
    · exact .inr (.inl ⟨s(a, b), ⟨i, a, b, ⟨face, hface, hab⟩, rfl⟩, rfl⟩)
    · exact .inr (.inr ⟨(i, a, b), ⟨face, hface, hab⟩, rfl⟩)
    · exact .inl ⟨b, hclosed.head_mem_tails ⟨face, hface, hab⟩, rfl⟩
  · rintro (⟨b, ⟨i, c, hbc⟩, rfl⟩ |
      ⟨_, ⟨i, a, b, ⟨face, hface, hab⟩, rfl⟩, rfl⟩ |
      ⟨⟨i, a, b⟩, ⟨face, hface, hab⟩, rfl⟩)
    · obtain ⟨a, face, hface, hab⟩ := hclosed.prev hbc
      exact ⟨_, (mem_pentagonSites hsimple).mpr
        ⟨i, face, a, b, hface, hab, .inr (.inr ⟨rfl, rfl⟩)⟩, rfl⟩
    · exact ⟨_, (mem_pentagonSites hsimple).mpr
        ⟨i, face, a, b, hface, hab, .inl ⟨rfl, rfl⟩⟩, rfl⟩
    · exact ⟨_, (mem_pentagonSites hsimple).mpr
        ⟨i, face, a, b, hface, hab, .inr (.inl ⟨rfl, rfl⟩)⟩, rfl⟩

theorem mem_quintoSites_iff
    (hsimple : ∀ face ∈ mesh.faces, face.Nodup)
    (hclosed : mesh.faces.incidence.Closed)
    {key : IndexKey} :
    key ∈ mesh.quintoSites.map Prod.fst ↔
      key ∈
        IndexRole.key '' (Incidence.quinto mesh.faces.incidence).tails := by
  rw [quintoSites_eq, mem_keyed_sites_iff, pentagonSites_eq hsimple hclosed]

section Keys

variable (hfits : mesh.IndicesFit)
include hfits

theorem injOn_key_quinto_faces (hclosed : mesh.faces.incidence.Closed) :
    Set.InjOn IndexRole.key
      (Incidence.quinto mesh.faces.incidence).faces := by
  rw [(Incidence.quinto_copiesAndRings hclosed).faces_eq]
  apply IndexRole.injOn_key_of_not_edge
  · rintro _ (⟨i, hi, rfl⟩ | ⟨⟨i, a, b⟩, hab, rfl⟩)
    · exact hfits.face hi
    · exact ⟨hfits.face (Incidence.mem_faces hab),
        hfits.tail (Incidence.mem_tails hab)⟩
  · rintro _ (⟨i, hi, rfl⟩ | ⟨⟨i, a, b⟩, hab, rfl⟩) <;> exact id

theorem injOn_key_quinto_tails :
    Set.InjOn IndexRole.key
      (Incidence.quinto mesh.faces.incidence).tails := by
  rw [Incidence.tails_quinto]
  apply IndexRole.injOn_key_of_not_pair
  · rintro _ (⟨b, hb, rfl⟩ | ⟨e, he, rfl⟩ | ⟨⟨i, a, b⟩, hab, rfl⟩)
    · exact hfits.tail hb
    · exact hfits.side he
    · exact ⟨hfits.face (Incidence.mem_faces hab),
        hfits.side ⟨i, a, b, hab, rfl⟩⟩
  · rintro _ (⟨b, hb, rfl⟩ | ⟨e, he, rfl⟩ | ⟨⟨i, a, b⟩, hab, rfl⟩) <;>
      exact id

end Keys

/-- Quinto keeps a mesh polyhedral and its Euler characteristic. -/
theorem Polyhedral.quinto
    (h : mesh.Polyhedral)
    (hfits : mesh.Fits) :
    ∃ out, mesh.quinto = .ok out ∧ out.Polyhedral ∧
      out.eulerCharacteristic = mesh.eulerCharacteristic := by
  have hpoly := h.incidence
  have hindices :=
    InRange.indicesFit h.inRange hfits.vertexCount_le hfits.faceCount_le
  exact h.keyed (Incidence.quinto_polyhedral hpoly)
    (Incidence.doubleEuler_quinto hpoly.toClosed Surface.finite_flags)
    (injOn_key_quinto_faces hindices hpoly.toClosed) (injOn_key_quinto_tails
      hindices) (fun _ _ _ => Surface.mem_quintoFlags_iff h.simple)
    (fun _ => mem_quintoSites_iff h.simple hpoly.toClosed) ("q" ++ mesh.name)

end Mesh
end Polyhedra
