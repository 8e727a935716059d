import Mathlib
import Polyhedra.Proofs.Incidence.Count
import Polyhedra.Proofs.Operator.Sites

/-!
# Chamfer

Every face keeps a copy with corners of its own, and every edge becomes a
hexagon that runs through the corners of the copies on its two sides.
-/

namespace Polyhedra

namespace Incidence

variable {M : Incidence ℕ ℕ}

/-- The copy of the face `i` with the edge from `a` to `b`, and its half of
the hexagon of that edge. -/
inductive ChamferFlag (M : Incidence ℕ ℕ) : Pattern 4 IndexRole IndexRole
  | copy {i a b} :
      M i a b → ChamferFlag M i a b 0 (.single i) (.pair i a) (.pair i b)
  | enter {i a b} :
      M i a b → ChamferFlag M i a b 1 (.edge s(a, b)) (.single b) (.pair i b)
  | back {i a b} :
      M i a b → ChamferFlag M i a b 2 (.edge s(a, b)) (.pair i b) (.pair i a)
  | leave {i a b} :
      M i a b → ChamferFlag M i a b 3 (.edge s(a, b)) (.pair i a) (.single a)

def chamfer (M : Incidence ℕ ℕ) : Incidence IndexRole IndexRole :=
  (ChamferFlag M).incidence

theorem chamfer_iff {f v w : IndexRole} :
    chamfer M f v w ↔
      ∃ i a b, M i a b ∧
        (.single i = f ∧ .pair i a = v ∧ .pair i b = w ∨ .edge s(a, b) = f ∧
          (.single b = v ∧ .pair i b = w ∨ .pair i b = v ∧ .pair i a = w ∨
            .pair i a = v ∧ .single a = w)) := by
  constructor
  · rintro ⟨_, _, _, _, h⟩
    cases h with
    | copy hab => exact ⟨_, _, _, hab, .inl ⟨rfl, rfl, rfl⟩⟩
    | enter hab => exact ⟨_, _, _, hab, .inr ⟨rfl, .inl ⟨rfl, rfl⟩⟩⟩
    | back hab => exact ⟨_, _, _, hab, .inr ⟨rfl, .inr (.inl ⟨rfl, rfl⟩)⟩⟩
    | leave hab => exact ⟨_, _, _, hab, .inr ⟨rfl, .inr (.inr ⟨rfl, rfl⟩)⟩⟩
  · rintro ⟨i, a, b, hab,
      ⟨rfl, rfl, rfl⟩ | ⟨rfl, ⟨rfl, rfl⟩ | ⟨rfl, rfl⟩ | ⟨rfl, rfl⟩⟩⟩
    exacts [Pattern.mem (.copy hab), Pattern.mem (.enter hab),
      Pattern.mem (.back hab), Pattern.mem (.leave hab)]

theorem chamfer_copy_iff {i : ℕ} {v w : IndexRole} :
    chamfer M (.single i) v w ↔
      ∃ a b, M i a b ∧ .pair i a = v ∧ .pair i b = w := by
  rw [chamfer_iff]
  grind

theorem chamfer_edge_iff
    (hM : M.Closed)
    {i j a b : ℕ}
    (hab : M i a b)
    (hba : M j b a)
    {v w : IndexRole} :
    chamfer M (.edge s(a, b)) v w ↔
      (v, w) ∈
        Face.steps [.single b, .pair i b, .pair i a, .single a, .pair j a,
          .pair j b] := by
  have howner := @hM.owner_unique
  rw [Face.mem_steps_six, chamfer_iff]
  constructor
  · rintro ⟨k, c, d, hcd, ⟨heq, -⟩ | ⟨heq, h⟩⟩
    · cases heq
    · rcases Sym2.eq_iff.mp (IndexRole.edge.inj heq) with ⟨rfl, rfl⟩ |
        ⟨rfl, rfl⟩ <;> grind
  · rintro (⟨rfl, rfl⟩ | ⟨rfl, rfl⟩ | ⟨rfl, rfl⟩ | ⟨rfl, rfl⟩ | ⟨rfl, rfl⟩ |
      ⟨rfl, rfl⟩)
    · exact ⟨i, a, b, hab, .inr ⟨rfl, .inl ⟨rfl, rfl⟩⟩⟩
    · exact ⟨i, a, b, hab, .inr ⟨rfl, .inr (.inl ⟨rfl, rfl⟩)⟩⟩
    · exact ⟨i, a, b, hab, .inr ⟨rfl, .inr (.inr ⟨rfl, rfl⟩)⟩⟩
    · exact ⟨j, b, a, hba, .inr ⟨by rw [Sym2.eq_swap], .inl ⟨rfl, rfl⟩⟩⟩
    · exact ⟨j, b, a, hba,
        .inr ⟨by rw [Sym2.eq_swap], .inr (.inl ⟨rfl, rfl⟩)⟩⟩
    · exact ⟨j, b, a, hba,
        .inr ⟨by rw [Sym2.eq_swap], .inr (.inr ⟨rfl, rfl⟩)⟩⟩

theorem chamferFlag_fills (hM : M.Closed) : (ChamferFlag M).Fills M where
  base h := by cases h <;> assumption
  fill := by
    intro i a b hab place
    fin_cases place
    exacts [⟨_, _, _, .copy hab⟩, ⟨_, _, _, .enter hab⟩,
      ⟨_, _, _, .back hab⟩, ⟨_, _, _, .leave hab⟩]
  unique := by
    intro i a b place f v w f' v' w' h h'
    cases h <;> cases h' <;> grind
  apart := by
    have howner := @hM.owner_unique
    have hne := @hM.ne
    intro i a b place i' a' b' place' f v w h h'
    generalize hf : f = f' at h'
    cases h <;> cases h' <;> grind [Sym2.eq_iff]

/-- The face across every edge of a copy and of a half of a hexagon.  A half
lies between the hexagons of the edges before and after its own in the same
face and the copy of that face. -/
inductive ChamferAcross (M : Incidence ℕ ℕ) :
    IndexRole → IndexRole → IndexRole → Prop
  | copy {i a b} : M i a b →
      ChamferAcross M (.single i) (.pair i a) (.edge s(a, b))
  | enter {i a b c} : M i a b → M i b c →
      ChamferAcross M (.edge s(a, b)) (.single b) (.edge s(b, c))
  | back {i a b} : M i a b →
      ChamferAcross M (.edge s(a, b)) (.pair i b) (.single i)
  | leave {i z a b} : M i z a → M i a b →
      ChamferAcross M (.edge s(a, b)) (.pair i a) (.edge s(z, a))

theorem exists_chamferAcross
    (hM : M.Closed)
    {f v w : IndexRole}
    (h : chamfer M f v w) :
    ∃ g, ChamferAcross M f v g ∧ chamfer M g w v := by
  obtain ⟨i, a, b, place, h⟩ := h
  cases h with
  | copy hab => exact ⟨_, .copy hab, Pattern.mem (.back hab)⟩
  | enter hab =>
      obtain ⟨c, hbc⟩ := hM.next hab
      exact ⟨_, .enter hab hbc, Pattern.mem (.leave hbc)⟩
  | back hab => exact ⟨_, .back hab, Pattern.mem (.copy hab)⟩
  | leave hab =>
      obtain ⟨z, hza⟩ := hM.prev hab
      exact ⟨_, .leave hza hab, Pattern.mem (.enter hza)⟩

theorem ChamferAcross.ne
    (hM : M.Closed)
    {f g v : IndexRole}
    (h : ChamferAcross M f v g) : g ≠ f := by
  have hne := @hM.ne
  have hlong := @hM.long
  intro heq
  cases h with
  | copy | back => cases heq
  | enter hab hbc => grind [Sym2.eq_iff]
  | leave hza hab => grind [Sym2.eq_iff]

/-- Different edges of a face have different faces across. -/
theorem ChamferAcross.unique
    (hM : M.Polyhedral)
    {f g v v' : IndexRole}
    (h : ChamferAcross M f v g)
    (h' : ChamferAcross M f v' g) : v = v' := by
  have hne := @hM.ne
  have hlong := @hM.long
  have howner := @hM.owner_unique
  -- an edge is unordered, so its hexagon may come from either of its faces
  generalize hf : f = f', hg : g = g' at h'
  cases h with
  | @enter i a b c hab hbc =>
      have hdegree {j} : M j c b → ¬ M j b a := hM.degree hab hbc
      cases h' with
      | leave hza hab' =>
          -- one face across the edges before and after the corner `b`
          grind [Sym2.eq_iff]
      | _ => grind [Sym2.eq_iff]
  | @leave i z a b hza hab =>
      have hdegree {j} : M j b a → ¬ M j a z := hM.degree hza hab
      cases h' with
      | enter hab' hbc => grind [Sym2.eq_iff]
      | _ => grind [Sym2.eq_iff]
  | copy | back => cases h' <;> grind [Sym2.eq_iff]

theorem chamfer_closed (hM : M.Closed) : (chamfer M).Closed := by
  have hhead := @hM.head_unique
  have htail := @hM.tail_unique
  have hlong := @hM.long
  have hcyclic : (chamfer M).Cyclic := by
    refine Cyclic.of_isCycle fun f v w h => ?_
    obtain ⟨i, a, b, hab, ⟨rfl, -⟩ | ⟨rfl, -⟩⟩ := chamfer_iff.mp h
    · apply (hM.isCycle i).transport fun a v => .pair i a = v
      · intro v w
        rw [chamfer_copy_iff]
      · exact fun a _ _ => ⟨_, rfl⟩
      · grind
      · grind
    · obtain ⟨j, hj, hba⟩ := hM.mate hab
      have hab' := hM.ne hab
      refine isCycle_of_steps ?_ fun v w => chamfer_edge_iff hM hab hba
      grind
  refine hcyclic.closed_of_across ?_ (exists_chamferAcross hM)
    fun h => h.ne hM
  rintro f g v w ⟨i, a, b, place, h⟩ ⟨i', a', b', place', h'⟩
  cases h <;> cases h' <;> grind

/-- The hexagons around an input vertex follow the faces around it. -/
theorem chamfer_fan_single
    (hM : M.Polyhedral)
    {b : ℕ} {f g v w : IndexRole}
    (hf : chamfer M f (.single b) v)
    (hg : chamfer M g (.single b) w) :
    Relation.EqvGen ((chamfer M).Around (.single b)) f g := by
  have hhead := @hM.head_unique
  apply hM.fan_of_image b (fun i f => ∃ c, M i b c ∧ .edge s(b, c) = f) _ _ _
    hf hg
  · rintro i _ _ ⟨c, hc, rfl⟩ ⟨c', hc', rfl⟩
    rw [hhead hc hc']
    exact .refl _
  · intro i j w hj hi
    obtain ⟨c, hbc⟩ := hM.next hi
    refine ⟨_, _, ⟨c, hbc, rfl⟩, ⟨w, hj, rfl⟩,
      .rel _ _ ⟨.pair i b, ?_, Pattern.mem (.leave hbc)⟩⟩
    rw [Sym2.eq_swap]
    exact Pattern.mem (.enter hi)
  · rintro f w ⟨_, _, _, _, h⟩
    cases h with
    | @enter i a _ hab =>
        obtain ⟨j, -, hba⟩ := hM.mate hab
        exact ⟨_, _, hba, _, hba, by rw [Sym2.eq_swap]⟩

/-- At a corner of a copy there are the copy and two hexagons. -/
theorem chamfer_fan_pair {i b : ℕ} {f g v w : IndexRole}
    (hf : chamfer M f (.pair i b) v)
    (hg : chamfer M g (.pair i b) w) :
    Relation.EqvGen ((chamfer M).Around (.pair i b)) f g := by
  have hcommon : ∀ {f v}, chamfer M f (.pair i b) v →
      Relation.EqvGen ((chamfer M).Around (.pair i b)) f (.single i) := by
    rintro f v ⟨_, _, _, _, hf⟩
    cases hf with
    | copy => exact .refl _
    | back hab =>
        exact .symm _ _
          (.rel _ _ ⟨_, Pattern.mem (.back hab), Pattern.mem (.copy hab)⟩)
    | leave hbc =>
        exact .rel _ _ ⟨_, Pattern.mem (.copy hbc), Pattern.mem (.back hbc)⟩
  exact eqvGen_of_common (hcommon hf) (hcommon hg)

theorem chamfer_polyhedral (hM : M.Polyhedral) :
    (chamfer M).Polyhedral where
  toClosed := chamfer_closed hM.toClosed
  fan {f g v} := by
    intro w w' hf hg
    cases v with
    | single b => exact chamfer_fan_single hM hf hg
    | pair i b => exact chamfer_fan_pair hf hg
    | _ =>
        obtain ⟨_, _, _, _, hf⟩ := hf
        cases hf
  shared := (chamfer_closed hM.toClosed).shared_of_across
    (exists_chamferAcross hM.toClosed) fun h => h.unique hM

/-! ### Counts -/

theorem tails_chamfer (hM : M.Closed) : (chamfer M).tails =
    IndexRole.single '' M.tails ∪
      (fun flag => IndexRole.pair flag.1 flag.2.1) '' M.flags := by
  ext v
  constructor
  · rintro ⟨f, w, i, a, b, place, h⟩
    cases h with
    | copy hab | leave hab => exact .inr ⟨(i, a, b), hab, rfl⟩
    | enter hab => exact .inl ⟨b, hM.head_mem_tails hab, rfl⟩
    | back hab =>
        obtain ⟨c, hbc⟩ := hM.next hab
        exact .inr ⟨(i, b, c), hbc, rfl⟩
  · rintro (⟨b, ⟨i, c, hbc⟩, rfl⟩ | ⟨⟨i, a, b⟩, hab, rfl⟩)
    · obtain ⟨a, hab⟩ := hM.prev hbc
      exact ⟨_, _, Pattern.mem (.enter hab)⟩
    · exact ⟨_, _, Pattern.mem (.copy hab)⟩

theorem faces_chamfer : (chamfer M).faces =
    IndexRole.single '' M.faces ∪ IndexRole.edge '' M.sides := by
  ext f
  constructor
  · rintro ⟨v, w, i, a, b, place, h⟩
    cases h with
    | copy hab => exact .inl ⟨i, mem_faces hab, rfl⟩
    | enter hab | back hab | leave hab =>
        exact .inr ⟨s(a, b), ⟨i, a, b, hab, rfl⟩, rfl⟩
  · rintro (⟨i, ⟨a, b, hab⟩, rfl⟩ | ⟨_, ⟨i, a, b, hab, rfl⟩, rfl⟩)
    · exact ⟨_, _, Pattern.mem (.copy hab)⟩
    · exact ⟨_, _, Pattern.mem (.enter hab)⟩

theorem ncard_tails_chamfer
    (hM : M.Closed)
    (hfinite : M.flags.Finite) :
    (chamfer M).tails.ncard = M.tails.ncard + M.flags.ncard := by
  rw [tails_chamfer hM,
    ncard_image_union (finite_tails hfinite) (hfinite.image _),
    (hM.injOn_corner _).ncard_image]
  all_goals grind [Set.InjOn]

theorem ncard_faces_chamfer (hfinite : M.flags.Finite) :
    (chamfer M).faces.ncard = M.faces.ncard + M.sides.ncard := by
  rw [faces_chamfer, ncard_image_union (finite_faces hfinite)
    ((finite_sides hfinite).image _), Set.ncard_image_of_injective]
  all_goals grind [Function.Injective, Set.InjOn]

theorem doubleEuler_chamfer
    (hM : M.Closed)
    (hfinite : M.flags.Finite) :
    (chamfer M).doubleEuler = M.doubleEuler := by
  have hsides := hM.two_mul_ncard_sides hfinite
  have hflags : (chamfer M).flags.ncard = 4 * M.flags.ncard :=
    (chamferFlag_fills hM).ncard_flags
  unfold doubleEuler
  rw [ncard_tails_chamfer hM hfinite, ncard_faces_chamfer hfinite, hflags,
    ← hsides]
  push_cast
  ring

end Incidence

theorem Surface.mem_chamferFlags_iff {surface : Surface} {f v w : IndexKey} :
    ⟨f, v, w⟩ ∈ surface.chamferFlags ↔
      (Incidence.chamfer surface.incidence).rename IndexRole.key
        IndexRole.key f v w := by
  have halong : ∀ i a b : ℕ, (v, w) ∈
        [IndexKey.single b, .pair i b, .pair i a, .single a].zip
          ([IndexKey.single b, .pair i b, .pair i a, .single a].drop 1) ↔
      v = .single b ∧ w = .pair i b ∨ v = .pair i b ∧ w = .pair i a ∨
      v = .pair i a ∧ w = .single a := by
    simp
  simp only [Incidence.rename, Incidence.chamfer_iff, chamferFlags,
    List.mem_flatMap, List.mem_append, List.mem_singleton, Flag.mk.injEq,
    Prod.exists, mem_indexed_iff, Flag.mem_along_iff, halong]
  constructor
  · rintro ⟨face, i, hface, a, b, harrival, h⟩
    have hab := exists_arrival_iff.mp ⟨face, hface, harrival⟩
    rcases h with ⟨rfl, rfl, rfl⟩ |
      ⟨rfl, ⟨rfl, rfl⟩ | ⟨rfl, rfl⟩ | ⟨rfl, rfl⟩⟩
    · exact ⟨_, _, _, ⟨i, a, b, hab, .inl ⟨rfl, rfl, rfl⟩⟩, rfl, rfl, rfl⟩
    · exact ⟨_, _, _, ⟨i, a, b, hab, .inr ⟨rfl, .inl ⟨rfl, rfl⟩⟩⟩, rfl, rfl,
        rfl⟩
    · exact ⟨_, _, _, ⟨i, a, b, hab, .inr ⟨rfl, .inr (.inl ⟨rfl, rfl⟩)⟩⟩,
        rfl, rfl, rfl⟩
    · exact ⟨_, _, _, ⟨i, a, b, hab, .inr ⟨rfl, .inr (.inr ⟨rfl, rfl⟩)⟩⟩,
        rfl, rfl, rfl⟩
  · rintro ⟨_, _, _, ⟨i, a, b, hab, h⟩, rfl, rfl, rfl⟩
    obtain ⟨face, hface, harrival⟩ := exists_arrival_iff.mpr hab
    refine ⟨face, i, hface, a, b, harrival, ?_⟩
    rcases h with ⟨rfl, rfl, rfl⟩ |
      ⟨rfl, ⟨rfl, rfl⟩ | ⟨rfl, rfl⟩ | ⟨rfl, rfl⟩⟩
    · exact .inl ⟨rfl, rfl, rfl⟩
    · exact .inr ⟨rfl, .inl ⟨rfl, rfl⟩⟩
    · exact .inr ⟨rfl, .inr (.inl ⟨rfl, rfl⟩)⟩
    · exact .inr ⟨rfl, .inr (.inr ⟨rfl, rfl⟩)⟩

namespace Mesh

variable {mesh : Mesh}

/-- The points of chamfer by their roles. -/
def ridgeSites (mesh : Mesh) (depth : Float) : List (IndexRole × Point) :=
  mesh.faces.indexed.flatMap fun (face, i) =>
    face.arrivals.flatMap fun (_, b) =>
    [ (.single b, mesh.position b * (1 + depth)),
      (.pair i b, mesh.position b + mesh.faceNormal face * (1.5 * depth)) ]

theorem chamferSites_eq (mesh : Mesh) (depth : Float) :
    mesh.chamferSites depth =
      (mesh.ridgeSites depth).map fun (role, p) => (role.key, p) := by
  simp only [chamferSites, ridgeSites, List.map_flatMap, List.map_cons,
    List.map_nil]
  rfl

theorem mem_ridgeSites {depth : Float} {role : IndexRole} {p : Point} :
    (role, p) ∈ mesh.ridgeSites depth ↔
      ∃ (i : ℕ) (face : Face) (b : ℕ), mesh.faces[i]? = some face ∧
        b ∈ face ∧
        (.single b = role ∧ mesh.position b * (1 + depth) = p ∨
          .pair i b = role ∧
          mesh.position b + mesh.faceNormal face * (1.5 * depth) = p) := by
  simp only [ridgeSites, List.mem_flatMap, Prod.exists,
    Surface.mem_indexed_iff, Face.mem_arrivals_iff, List.mem_cons,
    Prod.mk.injEq, List.not_mem_nil, or_false, eq_comm (a := role),
    eq_comm (a := p)]
  constructor
  · rintro ⟨face, i, hface, a, b, hab, hsite⟩
    exact ⟨i, face, b, hface, (Face.mem_of_step hab).2, hsite⟩
  · rintro ⟨i, face, b, hface, hb, hsite⟩
    obtain ⟨a, hab⟩ := Face.exists_step_to hb
    exact ⟨face, i, hface, a, b, hab, hsite⟩

theorem ridgeSites_eq
    (hclosed : mesh.faces.incidence.Closed)
    (depth : Float) :
    {role | role ∈ (mesh.ridgeSites depth).map Prod.fst} =
      (Incidence.chamfer mesh.faces.incidence).tails := by
  ext role
  rw [Set.mem_ofPred_eq, List.mem_map, Incidence.tails_chamfer hclosed]
  constructor
  · rintro ⟨⟨_, p⟩, hsite, rfl⟩
    obtain ⟨i, face, b, hface, hb, hrole⟩ := mem_ridgeSites.mp hsite
    obtain ⟨c, hbc⟩ := Surface.exists_incidence_iff.mpr ⟨face, hface, hb⟩
    rcases hrole with ⟨rfl, -⟩ | ⟨rfl, -⟩
    · exact .inl ⟨b, Incidence.mem_tails hbc, rfl⟩
    · exact .inr ⟨(i, b, c), hbc, rfl⟩
  · rintro (⟨b, ⟨i, c, hbc⟩, rfl⟩ | ⟨⟨i, b, c⟩, hbc, rfl⟩) <;>
      obtain ⟨face, hface, hb⟩ := Surface.exists_incidence_iff.mp ⟨c, hbc⟩
    · exact ⟨_, mem_ridgeSites.mpr ⟨i, face, b, hface, hb, .inl ⟨rfl, rfl⟩⟩,
        rfl⟩
    · exact ⟨_, mem_ridgeSites.mpr ⟨i, face, b, hface, hb, .inr ⟨rfl, rfl⟩⟩,
        rfl⟩

theorem mem_chamferSites_iff
    (hclosed : mesh.faces.incidence.Closed)
    {depth : Float} {key : IndexKey} :
    key ∈ (mesh.chamferSites depth).map Prod.fst ↔
      key ∈
        IndexRole.key '' (Incidence.chamfer mesh.faces.incidence).tails := by
  rw [chamferSites_eq, mem_keyed_sites_iff, ridgeSites_eq hclosed]

section Keys

variable (hfits : mesh.IndicesFit)
include hfits

theorem injOn_key_chamfer_faces :
    Set.InjOn IndexRole.key
      (Incidence.chamfer mesh.faces.incidence).faces := by
  rw [Incidence.faces_chamfer]
  apply IndexRole.injOn_key_of_not_pair
  · rintro _ (⟨i, hi, rfl⟩ | ⟨e, he, rfl⟩)
    · exact hfits.face hi
    · exact hfits.side he
  · rintro _ (⟨i, hi, rfl⟩ | ⟨e, he, rfl⟩) <;> exact id

theorem injOn_key_chamfer_tails (hclosed : mesh.faces.incidence.Closed) :
    Set.InjOn IndexRole.key
      (Incidence.chamfer mesh.faces.incidence).tails := by
  rw [Incidence.tails_chamfer hclosed]
  apply IndexRole.injOn_key_of_not_edge
  · rintro _ (⟨b, hb, rfl⟩ | ⟨⟨i, a, b⟩, hab, rfl⟩)
    · exact hfits.tail hb
    · exact ⟨hfits.face (Incidence.mem_faces hab),
        hfits.tail (Incidence.mem_tails hab)⟩
  · rintro _ (⟨b, hb, rfl⟩ | ⟨⟨i, a, b⟩, hab, rfl⟩) <;> exact id

end Keys

/-- Chamfer keeps a mesh polyhedral and its Euler characteristic. -/
theorem Polyhedral.chamfer
    (h : mesh.Polyhedral)
    (hfits : mesh.Fits)
    (depth : Float) :
    ∃ out, mesh.chamfer depth = .ok out ∧ out.Polyhedral ∧
      out.eulerCharacteristic = mesh.eulerCharacteristic := by
  have hpoly := h.incidence
  have hindices :=
    InRange.indicesFit h.inRange hfits.vertexCount_le hfits.faceCount_le
  exact h.keyed (Incidence.chamfer_polyhedral hpoly)
    (Incidence.doubleEuler_chamfer hpoly.toClosed Surface.finite_flags)
    (injOn_key_chamfer_faces hindices) (injOn_key_chamfer_tails hindices
      hpoly.toClosed) (fun _ _ _ => Surface.mem_chamferFlags_iff)
    (fun _ => mem_chamferSites_iff hpoly.toClosed) ("c" ++ mesh.name)

end Mesh
end Polyhedra
