import Mathlib
import Polyhedra.Proofs.Incidence.Count
import Polyhedra.Proofs.Operator.Sites

/-!
# Ambo

The midpoints of the edges are the vertices of a face inside every face and
of a face around every vertex.  Two faces around one vertex of degree two
would get the same edges, so the degrees have to be at least three.  Then two
faces of the result share at most one edge, even where two faces of the
incidence share several.
-/

namespace Polyhedra

namespace Incidence

variable {M : Incidence ℕ ℕ}

/-- The face inside the face `i`, and the face around the vertex `b`, where
`a` comes before `b` in the face `i` and `c` after it. -/
inductive AmboFlag (M : Incidence ℕ ℕ) : Pattern 2 (ℕ ⊕ ℕ) (Sym2 ℕ)
  | turn {i a b c} :
      M i a b → M i b c → AmboFlag M i a b 0 (.inl i) s(a, b) s(b, c)
  | back {i a b c} :
      M i a b → M i b c → AmboFlag M i a b 1 (.inr b) s(b, c) s(a, b)

def ambo (M : Incidence ℕ ℕ) : Incidence (ℕ ⊕ ℕ) (Sym2 ℕ) :=
  (AmboFlag M).incidence

theorem ambo_iff {f : ℕ ⊕ ℕ} {v w : Sym2 ℕ} :
    ambo M f v w ↔
      ∃ i a b c, M i a b ∧ M i b c ∧
        (.inl i = f ∧ s(a, b) = v ∧ s(b, c) = w ∨
          .inr b = f ∧ s(b, c) = v ∧ s(a, b) = w) := by
  constructor
  · rintro ⟨_, _, _, _, h⟩
    cases h with
    | turn hab hbc => exact ⟨_, _, _, _, hab, hbc, .inl ⟨rfl, rfl, rfl⟩⟩
    | back hab hbc => exact ⟨_, _, _, _, hab, hbc, .inr ⟨rfl, rfl, rfl⟩⟩
  · rintro ⟨i, a, b, c, hab, hbc, ⟨rfl, rfl, rfl⟩ | ⟨rfl, rfl, rfl⟩⟩
    exacts [Pattern.mem (.turn hab hbc), Pattern.mem (.back hab hbc)]

theorem ambo_face_iff {i : ℕ} {v w : Sym2 ℕ} :
    ambo M (.inl i) v w ↔
      ∃ a b c, M i a b ∧ M i b c ∧ s(a, b) = v ∧ s(b, c) = w := by
  rw [ambo_iff]
  grind

theorem ambo_vertex_iff {b : ℕ} {v w : Sym2 ℕ} :
    ambo M (.inr b) v w ↔
      ∃ i a c, M i a b ∧ M i b c ∧ s(b, c) = v ∧ s(a, b) = w := by
  rw [ambo_iff]
  grind

theorem amboFlag_fills (hM : M.Closed) : (AmboFlag M).Fills M where
  base h := by cases h <;> assumption
  fill := by
    intro i a b hab place
    obtain ⟨c, hbc⟩ := hM.next hab
    fin_cases place
    exacts [⟨_, _, _, .turn hab hbc⟩, ⟨_, _, _, .back hab hbc⟩]
  unique := by
    have hhead := @hM.head_unique
    intro i a b place f v w f' v' w' h h'
    cases h <;> cases h' <;> grind
  apart := by
    have howner := @hM.owner_unique
    have hne := @hM.ne
    have hlong := @hM.long
    intro i a b place i' a' b' place' f v w h h'
    generalize hv : v = v', hw : w = w' at h'
    cases h <;> cases h' <;> grind [Sym2.eq_iff]

/-- The face inside a face follows its corners. -/
theorem ambo_face_isCycle (hM : M.Closed) (i : ℕ) :
    IsCycle (ambo M (.inl i)) := by
  have hhead := @hM.head_unique
  have hlong := @hM.long
  apply (hM.isCycle i).transport fun a e => ∃ b, M i a b ∧ s(a, b) = e
  · intro v w
    rw [ambo_face_iff]
    grind
  · exact fun a b hab => ⟨_, b, hab, rfl⟩
  · grind
  · grind [Sym2.eq_iff]

/-- In the face around a vertex its edges stand for the faces that they leave
the vertex in. -/
theorem ambo_vertex_isCycle_iff (hM : M.Closed) (b : ℕ) :
    IsCycle (ambo M (.inr b)) ↔ IsCycle (M.Around b) := by
  have hhead := @hM.head_unique
  have hleave :
      ∀ {i j c}, M i b c → ∀ c', M j b c' → s(b, c) = s(b, c') → i = j := by
    intro i j c hc c' hc' heq
    rw [← Sym2.congr_right.mp heq] at hc'
    exact hM.owner_unique hc hc'
  constructor
  · intro h
    apply h.transport fun e i => ∃ c, M i b c ∧ s(b, c) = e
    · intro i j
      constructor
      · rintro ⟨a, hba, hab⟩
        obtain ⟨c, hbc⟩ := hM.next hab
        exact ⟨_, _, ambo_vertex_iff.mpr ⟨i, a, c, hab, hbc, rfl, rfl⟩,
          ⟨c, hbc, rfl⟩, a, hba, Sym2.eq_swap⟩
      · rintro ⟨v, w, hvw, ⟨c', hc', rfl⟩, a', ha', rfl⟩
        obtain ⟨k, a, c, hab, hbc, hv, hw⟩ := ambo_vertex_iff.mp hvw
        obtain rfl := hleave hbc c' hc' hv
        rw [Sym2.eq_swap] at hw
        rw [← Sym2.congr_right.mp hw] at ha'
        exact ⟨a, ha', hab⟩
    · intro v w hvw
      obtain ⟨i, a, c, -, hbc, rfl, -⟩ := ambo_vertex_iff.mp hvw
      exact ⟨i, c, hbc, rfl⟩
    · rintro e i j ⟨c, hc, rfl⟩ ⟨c', hc', heq⟩
      exact hleave hc c' hc' heq.symm
    · rintro e e' i ⟨c, hc, rfl⟩ ⟨c', hc', rfl⟩
      rw [hhead hc hc']
  · intro h
    apply h.transport fun i e => ∃ c, M i b c ∧ s(b, c) = e
    · intro v w
      rw [ambo_vertex_iff]
      constructor
      · rintro ⟨i, a, c, hab, hbc, rfl, rfl⟩
        obtain ⟨j, -, hba⟩ := hM.mate hab
        exact ⟨i, j, ⟨a, hba, hab⟩, ⟨c, hbc, rfl⟩, a, hba, Sym2.eq_swap⟩
      · rintro ⟨i, j, ⟨a, hba, hab⟩, ⟨c, hbc, rfl⟩, a', hba', rfl⟩
        obtain rfl := hhead hba hba'
        exact ⟨i, a, c, hab, hbc, rfl, Sym2.eq_swap⟩
    · rintro i j ⟨a, -, hab⟩
      obtain ⟨c, hbc⟩ := hM.next hab
      exact ⟨_, c, hbc, rfl⟩
    · rintro i _ _ ⟨c, hc, rfl⟩ ⟨c', hc', rfl⟩
      rw [hhead hc hc']
    · rintro i j e ⟨c, hc, rfl⟩ ⟨c', hc', heq⟩
      exact hleave hc c' hc' heq.symm

/-- The face around a vertex follows the faces around it. -/
theorem ambo_vertex_isCycle
    (hM : M.Closed)
    (hfan :
      ∀ {f g v w w'}, M f v w → M g v w' → Relation.EqvGen (M.Around v) f g)
    (b : ℕ) :
    IsCycle (ambo M (.inr b)) :=
  (ambo_vertex_isCycle_iff hM b).mpr (hM.isCycle_around hfan b)

theorem ambo_closed (hM : M.Surrounded) : (ambo M).Closed := by
  have hhead := @hM.head_unique
  have htail := @hM.tail_unique
  have howner := @hM.owner_unique
  have hne := @hM.ne
  have hlong := @hM.long
  have hdegree := @hM.degree
  refine ⟨Cyclic.of_isCycle ?_, ?_, ?_⟩
  · intro f v w h
    cases f with
    | inl i => exact ambo_face_isCycle hM.toClosed i
    | inr b => exact ambo_vertex_isCycle hM.toClosed hM.fan b
  · rintro f g v w ⟨i, a, b, place, h⟩ ⟨i', a', b', place', h'⟩
    generalize hv : v = v', hw : w = w' at h'
    cases h <;> cases h' <;> grind [Sym2.eq_iff]
  · rintro f v w ⟨i, a, b, place, h⟩
    cases h with
    | turn hab hbc => exact ⟨_, by grind, Pattern.mem (.back hab hbc)⟩
    | back hab hbc => exact ⟨_, by grind, Pattern.mem (.turn hab hbc)⟩

/-- At the midpoint of an edge there are two faces inside faces and two
around vertices. -/
theorem ambo_fan
    (hM : M.Closed)
    {e v w : Sym2 ℕ} {f g : ℕ ⊕ ℕ}
    (hf : ambo M f e v)
    (hg : ambo M g e w) :
    Relation.EqvGen ((ambo M).Around e) f g := by
  obtain ⟨i, a, b, hab, rfl⟩ : ∃ i a b, M i a b ∧ e = s(a, b) := by
    obtain ⟨i, a, b, c, hab, hbc, ⟨-, rfl, -⟩ | ⟨-, rfl, -⟩⟩ :=
      ambo_iff.mp hf
    exacts [⟨i, a, b, hab, rfl⟩, ⟨i, b, c, hbc, rfl⟩]
  -- the face inside `i` meets the faces around both ends of each of its
  -- sides
  have hjoin : ∀ {i a b}, M i a b →
      Relation.EqvGen ((ambo M).Around s(a, b)) (.inr b) (.inl i) ∧
        Relation.EqvGen ((ambo M).Around s(a, b)) (.inr a) (.inl i) := by
    intro i a b hab
    obtain ⟨z, hza⟩ := hM.prev hab
    obtain ⟨c, hbc⟩ := hM.next hab
    exact ⟨.rel _ _
        ⟨_, Pattern.mem (.turn hab hbc), Pattern.mem (.back hab hbc)⟩,
      .symm _ _ (.rel _ _
        ⟨_, Pattern.mem (.back hza hab), Pattern.mem (.turn hza hab)⟩)⟩
  obtain ⟨j, -, hba⟩ := hM.mate hab
  have hmate :
      Relation.EqvGen ((ambo M).Around s(a, b)) (.inl j) (.inl i) := by
    have hj := (hjoin hba).2
    rw [Sym2.eq_swap] at hj
    exact (hj.symm).trans _ _ _ (hjoin hab).1
  have hcommon : ∀ {f x v}, ambo M f x v → s(a, b) = x →
      Relation.EqvGen ((ambo M).Around s(a, b)) f (.inl i) := by
    intro f x v hf hx
    obtain ⟨k, c, d, t, hcd, hdt, ⟨rfl, rfl, -⟩ | ⟨rfl, rfl, -⟩⟩ :=
      ambo_iff.mp hf
    · rcases Sym2.eq_iff.mp hx with ⟨rfl, rfl⟩ | ⟨rfl, rfl⟩
      · rw [hM.owner_unique hcd hab]
        exact .refl _
      · rw [hM.owner_unique hcd hba]
        exact hmate
    · rcases Sym2.eq_iff.mp hx with ⟨rfl, rfl⟩ | ⟨rfl, rfl⟩
      · exact (hjoin hab).2
      · exact (hjoin hab).1
  exact eqvGen_of_common (hcommon hf rfl) (hcommon hg rfl)

/-- Across an edge of the ambo there are a face inside a face and a face
around one of its corners. -/
theorem ambo_mate
    (hM : (ambo M).Closed)
    {f g : ℕ ⊕ ℕ} {v w : Sym2 ℕ}
    (hf : ambo M f v w)
    (hg : ambo M g w v) :
    ∃ i a b c, M i a b ∧ M i b c ∧
      (.inl i = f ∧ .inr b = g ∧ s(a, b) = v ∨
        .inr b = f ∧ .inl i = g ∧ s(b, c) = v) := by
  obtain ⟨i, a, b, c, hab, hbc, ⟨rfl, rfl, rfl⟩ | ⟨rfl, rfl, rfl⟩⟩ :=
    ambo_iff.mp hf
  · have hback : ambo M (.inr b) s(b, c) s(a, b) :=
      Pattern.mem (.back hab hbc)
    exact ⟨i, a, b, c, hab, hbc, .inl ⟨rfl, hM.owner_unique hback hg, rfl⟩⟩
  · have hturn : ambo M (.inl i) s(a, b) s(b, c) :=
      Pattern.mem (.turn hab hbc)
    exact ⟨i, a, b, c, hab, hbc, .inr ⟨rfl, hM.owner_unique hturn hg, rfl⟩⟩

theorem ambo_polyhedral (hM : M.Surrounded) : (ambo M).Polyhedral := by
  have hclosed := ambo_closed hM
  refine ⟨hclosed, fun hf hg => ambo_fan hM.toClosed hf hg, ?_⟩
  have hhead := @hM.head_unique
  have htail := @hM.tail_unique
  intro f g v w v' w' hf hg hf' hg'
  obtain ⟨i, a, b, c, hab, hbc, h⟩ := ambo_mate hclosed hf hg
  obtain ⟨j, p, q, r, hpq, hqr, h'⟩ := ambo_mate hclosed hf' hg'
  grind

theorem tails_ambo (hM : M.Closed) : (ambo M).tails = M.sides := by
  ext e
  constructor
  · rintro ⟨f, w, i, a, b, place, h⟩
    cases h with
    | turn hab _ => exact ⟨i, a, b, hab, rfl⟩
    | @back _ _ _ c _ hbc => exact ⟨i, b, c, hbc, rfl⟩
  · rintro ⟨i, a, b, hab, rfl⟩
    obtain ⟨c, hbc⟩ := hM.next hab
    exact ⟨_, _, Pattern.mem (.turn hab hbc)⟩

theorem faces_ambo (hM : M.Closed) :
    (ambo M).faces = Sum.inl '' M.faces ∪ Sum.inr '' M.tails := by
  ext f
  constructor
  · rintro ⟨v, w, i, a, b, place, h⟩
    cases h with
    | turn hab _ => exact .inl ⟨i, mem_faces hab, rfl⟩
    | back _ hbc => exact .inr ⟨b, mem_tails hbc, rfl⟩
  · rintro (⟨i, ⟨a, b, hab⟩, rfl⟩ | ⟨b, ⟨i, c, hbc⟩, rfl⟩)
    · obtain ⟨c, hbc⟩ := hM.next hab
      exact ⟨_, _, Pattern.mem (.turn hab hbc)⟩
    · obtain ⟨a, hab⟩ := hM.prev hbc
      exact ⟨_, _, Pattern.mem (.back hab hbc)⟩

theorem doubleEuler_ambo
    (hM : M.Closed)
    (hfinite : M.flags.Finite) :
    (ambo M).doubleEuler = M.doubleEuler := by
  have hsides := hM.two_mul_ncard_sides hfinite
  have hfaces : (ambo M).faces.ncard = M.faces.ncard + M.tails.ncard := by
    rw [faces_ambo hM, ncard_image_union (finite_faces hfinite)
      ((finite_tails hfinite).image _) Sum.inl_injective.injOn,
      Set.ncard_image_of_injective _ Sum.inr_injective]
    rintro i - ⟨b, -, heq⟩
    cases heq
  have hflags : (ambo M).flags.ncard = 2 * M.flags.ncard :=
    (amboFlag_fills hM).ncard_flags
  unfold doubleEuler
  rw [tails_ambo hM, hfaces, hflags, ← hsides]
  push_cast
  ring

end Incidence

/-- The face inside the face `i` has the index `i`, and the face around the
vertex `b` the index `b` after those of all faces. -/
def Surface.amboFace (surface : Surface) : ℕ ⊕ ℕ → IndexKey :=
  Sum.elim IndexKey.single fun b => .single (surface.length + b)

theorem Surface.mem_amboFlags_iff {surface : Surface}
    (hsimple : ∀ face ∈ surface, face.Nodup)
    {f v w : IndexKey} :
    ⟨f, v, w⟩ ∈ surface.amboFlags ↔
      (Incidence.ambo surface.incidence).rename surface.amboFace
        (IndexRole.key ∘ .edge) f v w := by
  simp only [Incidence.rename, Incidence.ambo_iff, amboFlags,
    List.mem_flatMap, List.mem_cons, List.not_mem_nil, or_false,
    Flag.mk.injEq, Prod.exists, mem_indexed_iff]
  constructor
  · rintro ⟨face, i, hface, a, b, c, htriple, h⟩
    obtain ⟨hab, hbc⟩ :=
      (exists_triple_iff hsimple).mp ⟨face, hface, htriple⟩
    rcases h with ⟨rfl, rfl, rfl⟩ | ⟨rfl, rfl, rfl⟩
    · exact ⟨_, _, _, ⟨i, a, b, c, hab, hbc, .inl ⟨rfl, rfl, rfl⟩⟩, rfl, rfl,
        rfl⟩
    · exact ⟨_, _, _, ⟨i, a, b, c, hab, hbc, .inr ⟨rfl, rfl, rfl⟩⟩, rfl, rfl,
        rfl⟩
  · rintro ⟨_, _, _, ⟨i, a, b, c, hab, hbc, h⟩, rfl, rfl, rfl⟩
    obtain ⟨face, hface, htriple⟩ :=
      (exists_triple_iff hsimple).mpr ⟨hab, hbc⟩
    refine ⟨face, i, hface, a, b, c, htriple, ?_⟩
    rcases h with ⟨rfl, rfl, rfl⟩ | ⟨rfl, rfl, rfl⟩
    · exact .inl ⟨rfl, rfl, rfl⟩
    · exact .inr ⟨rfl, rfl, rfl⟩

namespace Mesh

variable {mesh : Mesh}

theorem mem_amboSites_iff
    (hsimple : ∀ face ∈ mesh.faces, face.Nodup)
    {key : IndexKey} :
    key ∈ mesh.amboSites.map Prod.fst ↔
      key ∈ (IndexRole.key ∘ .edge) '' mesh.faces.incidence.sides := by
  rw [amboSites, Surface.mem_map_flatMap_triples hsimple]
  constructor
  · rintro ⟨i, a, b, c, hab, hbc, rfl⟩
    exact ⟨s(a, b), ⟨i, a, b, hab, rfl⟩, rfl⟩
  · rintro ⟨_, ⟨i, a, b, hab, rfl⟩, rfl⟩
    obtain ⟨c, hbc⟩ := Surface.incidence_next hab
    exact ⟨i, a, b, c, hab, hbc, rfl⟩

section Fits

variable (hrange : mesh.InRange) (hfits : mesh.Fits)
include hrange hfits

theorem InRange.injOn_amboFace :
    Set.InjOn mesh.faces.amboFace (Sum.inl '' mesh.faces.incidence.faces ∪
      Sum.inr '' mesh.faces.incidence.tails) := by
  have hinjective : ∀ {a b}, a < mesh.vertexCount + mesh.faceCount →
      b < mesh.vertexCount + mesh.faceCount →
      IndexKey.single a = IndexKey.single b → a = b :=
    fun ha hb => IndexKey.single_inj (ha.le.trans hfits) (hb.le.trans hfits)
  have hface :
      ∀ {i}, i ∈ mesh.faces.incidence.faces → i < mesh.faceCount := by
    rintro i ⟨v, w, face, hface, -⟩
    exact (List.getElem?_eq_some_iff.mp hface).1
  have hvertex :
      ∀ {b}, b ∈ mesh.faces.incidence.tails → b < mesh.vertexCount :=
    fun hb => tails_subset hrange hb
  have hapart : ∀ {i b}, i < mesh.faceCount → b < mesh.vertexCount →
      IndexKey.single i ≠ .single (mesh.faceCount + b) := by
    intro i b hi hb heq
    have hindex := hinjective (by omega) (by omega) heq
    omega
  rintro _ (⟨i, hi, rfl⟩ | ⟨b, hb, rfl⟩) _ (⟨j, hj, rfl⟩ | ⟨c, hc, rfl⟩) heq
  · rw [hinjective (Nat.lt_add_left _ (hface hi))
      (Nat.lt_add_left _ (hface hj)) heq]
  · exact absurd heq (hapart (hface hi) (hvertex hc))
  · exact absurd heq.symm (hapart (hface hj) (hvertex hb))
  · have hindex : mesh.faceCount + b = mesh.faceCount + c := by
      apply hinjective _ _ heq
      · rw [Nat.add_comm]
        exact Nat.add_lt_add_right (hvertex hb) _
      · rw [Nat.add_comm]
        exact Nat.add_lt_add_right (hvertex hc) _
    rw [Nat.add_left_cancel hindex]

theorem InRange.injOn_edgeKey :
    Set.InjOn (IndexRole.key ∘ .edge) mesh.faces.incidence.sides := by
  intro e he e' he' heq
  have hrole : IndexRole.edge e = .edge e' :=
    IndexRole.key_inj (hrange.side_fits hfits.vertexCount_le he)
      (hrange.side_fits hfits.vertexCount_le he') (fun hpair => hpair.elim)
      (fun _ => id) heq
  rwa [IndexRole.edge.injEq] at hrole

end Fits

/-- Ambo keeps a mesh polyhedral and its Euler characteristic. -/
theorem Polyhedral.ambo
    (h : mesh.Polyhedral)
    (hfits : mesh.Fits) :
    ∃ out, mesh.ambo = .ok out ∧ out.Polyhedral ∧
      out.eulerCharacteristic = mesh.eulerCharacteristic := by
  have hpoly := h.incidence
  apply h.keyed (Incidence.ambo_polyhedral hpoly.surrounded)
    (Incidence.doubleEuler_ambo hpoly.toClosed Surface.finite_flags) _ _
    (fun _ _ _ => Surface.mem_amboFlags_iff h.simple) _ ("a" ++ mesh.name)
  · rw [Incidence.faces_ambo hpoly.toClosed]
    exact InRange.injOn_amboFace h.inRange hfits
  · rw [Incidence.tails_ambo hpoly.toClosed]
    exact InRange.injOn_edgeKey h.inRange hfits
  · rw [Incidence.tails_ambo hpoly.toClosed]
    exact fun _ => mem_amboSites_iff h.simple

end Mesh
end Polyhedra
