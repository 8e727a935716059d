import Mathlib
import Polyhedra.Proofs.Incidence.Basic

/-!
# Counting flags

In a closed incidence a flag is determined by its directed edge, and every
undirected edge has two of them.  A construction that makes a fixed number of
new flags for every flag multiplies their number; it is enough to tell the
new flags apart by the flag they were made for and by their places.
-/

namespace Polyhedra

/-- Two sets whose members are matched by a relation have the same number of
members. -/
theorem ncard_eq_of_matching {α β : Type} {s : Set α} {t : Set β}
    (r : α → β → Prop)
    (hleft : ∀ a ∈ s, ∃ b ∈ t, r a b)
    (hright : ∀ b ∈ t, ∃ a ∈ s, r a b)
    (hleftUnique : ∀ a ∈ s, ∀ a' ∈ s, ∀ b, r a b → r a' b → a = a')
    (hrightUnique : ∀ a, ∀ b ∈ t, ∀ b' ∈ t, r a b → r a b' → b = b') :
    s.ncard = t.ncard := by
  choose f hf hr using hleft
  apply Set.ncard_congr f hf
  · intro a a' ha ha' heq
    have h := hr a ha
    rw [heq] at h
    exact hleftUnique a ha a' ha' _ h (hr a' ha')
  · intro b hb
    obtain ⟨a, ha, hab⟩ := hright b hb
    exact ⟨a, ha, hrightUnique a _ (hf a ha) b hb (hr a ha) hab⟩

/-- The number of members of two families together, when no member is in
both. -/
theorem ncard_image_union {α γ : Type} {s : Set α} {t : Set γ} {f : α → γ}
    (hs : s.Finite)
    (ht : t.Finite)
    (hf : Set.InjOn f s)
    (hdisjoint : ∀ a ∈ s, f a ∉ t) :
    (f '' s ∪ t).ncard = s.ncard + t.ncard := by
  have hdisjoint' : Disjoint (f '' s) t := by
    rw [Set.disjoint_left]
    rintro _ ⟨a, ha, rfl⟩
    exact hdisjoint a ha
  rw [Set.ncard_union_eq hdisjoint' (hs.image f) ht, hf.ncard_image]

/-- A predicate splits a set in two. -/
theorem ncard_sep_add {α : Type} {s : Set α} (hs : s.Finite) (p : α → Prop) :
    {a ∈ s | p a}.ncard + {a ∈ s | ¬ p a}.ncard = s.ncard :=
  Set.ncard_inter_add_ncard_sdiff_eq_ncard s {a | p a} hs

namespace Incidence

variable {F K : Type} {R : Incidence F K}

/-- The directed edges. -/
def darts (R : Incidence F K) : Set (K × K) :=
  {dart | ∃ f, R f dart.1 dart.2}

/-- The undirected edges. -/
def sides (R : Incidence F K) : Set (Sym2 K) :=
  {side | ∃ f v w, R f v w ∧ side = s(v, w)}

theorem darts_eq_image : R.darts = Prod.snd '' R.flags := by
  ext ⟨v, w⟩
  constructor
  · rintro ⟨f, h⟩
    exact ⟨(f, v, w), h, rfl⟩
  · rintro ⟨⟨f, _⟩, h, rfl⟩
    exact ⟨f, h⟩

theorem sides_eq_image :
    R.sides = (fun dart => s(dart.1, dart.2)) '' R.darts := by
  ext side
  constructor
  · rintro ⟨f, v, w, h, rfl⟩
    exact ⟨(v, w), ⟨f, h⟩, rfl⟩
  · rintro ⟨⟨v, w⟩, ⟨f, h⟩, rfl⟩
    exact ⟨f, v, w, h, rfl⟩

theorem tails_eq_image : R.tails = (fun flag => flag.2.1) '' R.flags := by
  ext v
  constructor
  · rintro ⟨f, w, h⟩
    exact ⟨(f, v, w), h, rfl⟩
  · rintro ⟨⟨f, v, w⟩, h, rfl⟩
    exact ⟨f, w, h⟩

theorem faces_eq_image : R.faces = Prod.fst '' R.flags := by
  ext f
  constructor
  · rintro ⟨v, w, h⟩
    exact ⟨(f, v, w), h, rfl⟩
  · rintro ⟨⟨f, v, w⟩, h, rfl⟩
    exact ⟨v, w, h⟩

theorem finite_darts (hfinite : R.flags.Finite) : R.darts.Finite :=
  darts_eq_image ▸ hfinite.image _

theorem finite_sides (hfinite : R.flags.Finite) : R.sides.Finite :=
  sides_eq_image ▸ (finite_darts hfinite).image _

theorem finite_tails (hfinite : R.flags.Finite) : R.tails.Finite :=
  tails_eq_image ▸ hfinite.image _

theorem finite_faces (hfinite : R.flags.Finite) : R.faces.Finite :=
  faces_eq_image ▸ hfinite.image _

theorem Closed.ncard_darts (hR : R.Closed) :
    R.darts.ncard = R.flags.ncard := by
  have hinjective : Set.InjOn Prod.snd R.flags := by
    rintro ⟨f, v, w⟩ h ⟨g, v', w'⟩ h' heq
    cases heq
    have howner : f = g := hR.owner_unique h h'
    rw [howner]
  rw [darts_eq_image, hinjective.ncard_image]

/-- A flag is determined by its face and its tail. -/
theorem Cyclic.injOn_corner
    (hR : R.Cyclic)
    {α : Type} {role : F → K → α}
    (hrole : ∀ f v f' v', role f v = role f' v' → f = f' ∧ v = v') :
    Set.InjOn (fun flag => role flag.1 flag.2.1) R.flags := by
  rintro ⟨f, v, w⟩ h ⟨f', v', w'⟩ h' heq
  obtain ⟨rfl, rfl⟩ := hrole _ _ _ _ heq
  have hhead : w = w' := hR.head_unique h h'
  rw [hhead]

/-- A face does not have an edge in both directions. -/
theorem Closed.injOn_side
    (hR : R.Closed)
    {α : Type} {role : F → Sym2 K → α}
    (hrole : ∀ f e f' e', role f e = role f' e' → f = f' ∧ e = e') :
    Set.InjOn (fun flag => role flag.1 s(flag.2.1, flag.2.2)) R.flags := by
  rintro ⟨f, v, w⟩ h ⟨f', v', w'⟩ h' heq
  obtain ⟨rfl, hside⟩ := hrole _ _ _ _ heq
  rcases Sym2.eq_iff.mp hside with ⟨rfl, rfl⟩ | ⟨rfl, rfl⟩
  · rfl
  · exact absurd rfl (hR.long h h')

/-- The two directions of an edge are the two flags at it. -/
theorem Closed.two_mul_ncard_sides
    (hR : R.Closed)
    (hfinite : R.flags.Finite) :
    2 * R.sides.ncard = R.flags.ncard := by
  classical
  obtain ⟨darts, hdarts⟩ := (finite_darts hfinite).exists_finset_coe
  have hmem : ∀ {v w}, (v, w) ∈ darts ↔ ∃ f, R f v w := by
    intro v w
    rw [← Finset.mem_coe, hdarts]
    exact Iff.rfl
  have hfiber : ∀ side ∈ darts.image fun dart => s(dart.1, dart.2),
      (darts.filter fun dart => s(dart.1, dart.2) = side).card = 2 := by
    intro side hside
    obtain ⟨⟨v, w⟩, hvw, rfl⟩ := Finset.mem_image.mp hside
    obtain ⟨f, hf⟩ := hmem.mp hvw
    obtain ⟨g, -, hg⟩ := hR.mate hf
    have hpair : (darts.filter fun dart => s(dart.1, dart.2) = s(v, w)) =
        {(v, w), (w, v)} := by
      ext ⟨x, y⟩
      rw [Finset.mem_filter, Sym2.eq_iff, Finset.mem_insert,
        Finset.mem_singleton, Prod.mk.injEq, Prod.mk.injEq]
      constructor
      · exact fun h => h.2
      · rintro (⟨rfl, rfl⟩ | ⟨rfl, rfl⟩)
        · exact ⟨hvw, .inl ⟨rfl, rfl⟩⟩
        · exact ⟨hmem.mpr ⟨g, hg⟩, .inr ⟨rfl, rfl⟩⟩
    have hne : (v, w) ≠ (w, v) := fun heq => hR.ne hf (congrArg Prod.fst heq)
    rw [hpair, Finset.card_pair hne]
  have hsides : R.sides =
      (darts.image fun dart => s(dart.1, dart.2) : Set (Sym2 K)) := by
    rw [sides_eq_image, ← hdarts, Finset.coe_image]
  rw [← hR.ncard_darts, ← hdarts, Set.ncard_coe_finset, hsides,
    Set.ncard_coe_finset,
    Finset.card_eq_sum_card_image (fun dart => s(dart.1, dart.2)) darts,
    Finset.sum_const_nat hfiber, mul_comm]

/-- The faces of a construction are a copy of every face of `M` and one face
for every corner of a face of `M`. -/
structure CopiesAndRings (R : Incidence F K) (M : Incidence ℕ ℕ)
    (copy : ℕ → F) (ring : ℕ → ℕ → F) : Prop where
  face : ∀ {f v w}, R f v w →
    (∃ i ∈ M.faces, copy i = f) ∨ ∃ i b c, M i b c ∧ ring i b = f
  copy_mem : ∀ {i b c}, M i b c → copy i ∈ R.faces
  ring_mem : ∀ {i b c}, M i b c → ring i b ∈ R.faces
  copy_inj : ∀ {i j}, copy i = copy j → i = j
  ring_inj : ∀ i b j c, ring i b = ring j c → i = j ∧ b = c
  copy_ne_ring : ∀ i j b, copy i ≠ ring j b

namespace CopiesAndRings

variable {M : Incidence ℕ ℕ} {copy : ℕ → F} {ring : ℕ → ℕ → F}
  (h : R.CopiesAndRings M copy ring)
include h

theorem faces_eq : R.faces =
    copy '' M.faces ∪ (fun flag => ring flag.1 flag.2.1) '' M.flags := by
  ext f
  constructor
  · rintro ⟨v, w, hf⟩
    rcases h.face hf with ⟨i, hi, rfl⟩ | ⟨i, b, c, hbc, rfl⟩
    · exact .inl ⟨i, hi, rfl⟩
    · exact .inr ⟨(i, b, c), hbc, rfl⟩
  · rintro (⟨i, ⟨a, b, hab⟩, rfl⟩ | ⟨⟨i, b, c⟩, hbc, rfl⟩)
    · exact h.copy_mem hab
    · exact h.ring_mem hbc

theorem ncard_faces
    (hM : M.Cyclic)
    (hfinite : M.flags.Finite) :
    R.faces.ncard = M.faces.ncard + M.flags.ncard := by
  have hcopy : Set.InjOn copy M.faces := fun _ _ _ _ heq => h.copy_inj heq
  rw [h.faces_eq, ncard_image_union (finite_faces hfinite)
    (hfinite.image _) hcopy, (hM.injOn_corner h.ring_inj).ncard_image]
  rintro i - ⟨⟨j, b, c⟩, -, heq⟩
  exact h.copy_ne_ring i j b heq.symm

end CopiesAndRings

/-! ## Patterns -/

/-- The flags that a construction makes for every flag `(i, a, b)`, told
apart by their places. -/
abbrev Pattern (k : ℕ) (F K : Type) := ℕ → ℕ → ℕ → Fin k → Incidence F K

namespace Pattern

variable {k : ℕ}

def incidence (pattern : Pattern k F K) : Incidence F K :=
  fun f v w => ∃ i a b place, pattern i a b place f v w

theorem mem {pattern : Pattern k F K} {i a b : ℕ} {place : Fin k} {f : F}
    {v w : K} (h : pattern i a b place f v w) :
    pattern.incidence f v w :=
  ⟨i, a, b, place, h⟩

/-- Where new flags are made. -/
def sites (pattern : Pattern k F K) : Set ((ℕ × ℕ × ℕ) × Fin k) :=
  {site | ∃ f v w, pattern site.1.1 site.1.2.1 site.1.2.2 site.2 f v w}

/-- A site has one new flag, and new flags of other sites differ. -/
structure Separates (pattern : Pattern k F K) : Prop where
  unique : ∀ {i a b place f v w f' v' w'}, pattern i a b place f v w →
    pattern i a b place f' v' w' → f = f' ∧ v = v' ∧ w = w'
  apart : ∀ {i a b place i' a' b' place' f v w}, pattern i a b place f v w →
    pattern i' a' b' place' f v w → i = i' ∧ a = a' ∧ b = b' ∧ place = place'

theorem Separates.ncard_flags {pattern : Pattern k F K}
    (h : pattern.Separates) :
    pattern.incidence.flags.ncard = pattern.sites.ncard := by
  symm
  apply ncard_eq_of_matching
    fun (site : (ℕ × ℕ × ℕ) × Fin k) (flag : F × K × K) =>
    pattern site.1.1 site.1.2.1 site.1.2.2 site.2 flag.1 flag.2.1 flag.2.2
  · rintro ⟨⟨i, a, b⟩, place⟩ ⟨f, v, w, hflag⟩
    exact ⟨(f, v, w), ⟨i, a, b, place, hflag⟩, hflag⟩
  · rintro ⟨f, v, w⟩ ⟨i, a, b, place, hflag⟩
    exact ⟨((i, a, b), place), ⟨f, v, w, hflag⟩, hflag⟩
  · rintro ⟨⟨i, a, b⟩, place⟩ - ⟨⟨i', a', b'⟩, place'⟩ - ⟨f, v, w⟩ hflag
      hflag'
    obtain ⟨rfl, rfl, rfl, rfl⟩ := h.apart hflag hflag'
    rfl
  · rintro ⟨⟨i, a, b⟩, place⟩ ⟨f, v, w⟩ - ⟨f', v', w'⟩ - hflag hflag'
    obtain ⟨rfl, rfl, rfl⟩ := h.unique hflag hflag'
    rfl

/-- Every flag of `M` has new flags at all places. -/
structure Fills (pattern : Pattern k F K) (M : Incidence ℕ ℕ) : Prop
    extends pattern.Separates where
  base : ∀ {i a b place f v w}, pattern i a b place f v w → M i a b
  fill : ∀ {i a b}, M i a b → ∀ place, ∃ f v w, pattern i a b place f v w

theorem Fills.ncard_flags {pattern : Pattern k F K} {M : Incidence ℕ ℕ}
    (h : pattern.Fills M) :
    pattern.incidence.flags.ncard = k * M.flags.ncard := by
  have hsites : pattern.sites = M.flags ×ˢ Set.univ := by
    ext ⟨⟨i, a, b⟩, place⟩
    constructor
    · rintro ⟨f, v, w, hflag⟩
      exact ⟨h.base hflag, trivial⟩
    · rintro ⟨hbase, -⟩
      exact h.fill hbase place
  rw [h.toSeparates.ncard_flags, hsites, Set.ncard_prod, Set.ncard_univ,
    Nat.card_fin, mul_comm]

/-- Every flag of a selected face has new flags at all places but the last
one, and every other flag has one at the last place. -/
structure Splits (pattern : Pattern (k + 1) F K) (M : Incidence ℕ ℕ)
    (selected : ℕ → Prop) :
    Prop extends pattern.Separates where
  base : ∀ {i a b place f v w}, pattern i a b place f v w → M i a b ∧
    (selected i ↔ place ≠ Fin.last k)
  fill : ∀ {i a b place}, M i a b → (selected i ↔ place ≠ Fin.last k) →
    ∃ f v w, pattern i a b place f v w

theorem Separates.splits {pattern : Pattern (k + 1) F K}
    {M : Incidence ℕ ℕ} {selected : ℕ → Prop}
    (h : pattern.Separates)
    (hbase : ∀ {i a b place f v w}, pattern i a b place f v w →
      M i a b ∧ (selected i ↔ place ≠ Fin.last k))
    (hselected : ∀ {i a b}, selected i → M i a b →
      ∀ place : Fin k, ∃ f v w, pattern i a b place.castSucc f v w)
    (hkept : ∀ {i a b}, ¬ selected i → M i a b →
      ∃ f v w, pattern i a b (Fin.last k) f v w) :
    pattern.Splits M selected where
  toSeparates := h
  base := hbase
  fill := by
    intro i a b place hab hplace
    induction place using Fin.lastCases with
    | last => exact hkept (fun hi => hplace.mp hi rfl) hab
    | cast place =>
        exact hselected (hplace.mpr (Fin.castSucc_lt_last place).ne) hab
          place

theorem Splits.ncard_flags {pattern : Pattern (k + 1) F K}
    {M : Incidence ℕ ℕ} {selected : ℕ → Prop}
    (h : pattern.Splits M selected)
    (hfinite : M.flags.Finite) :
    pattern.incidence.flags.ncard =
      k * {flag ∈ M.flags | selected flag.1}.ncard +
      {flag ∈ M.flags | ¬ selected flag.1}.ncard := by
  have hsites : pattern.sites =
      {flag ∈ M.flags | selected flag.1} ×ˢ {Fin.last k}ᶜ ∪
      {flag ∈ M.flags | ¬ selected flag.1} ×ˢ {Fin.last k} := by
    ext ⟨⟨i, a, b⟩, place⟩
    constructor
    · rintro ⟨f, v, w, hflag⟩
      obtain ⟨hbase, hplace⟩ := h.base hflag
      by_cases hselected : selected i
      · exact .inl ⟨⟨hbase, hselected⟩, hplace.mp hselected⟩
      · exact .inr ⟨⟨hbase, hselected⟩, not_not.mp (mt hplace.mpr hselected)⟩
    · rintro (⟨⟨hbase, hselected⟩, hplace⟩ | ⟨⟨hbase, hselected⟩, hplace⟩)
      · exact h.fill hbase ⟨fun _ => hplace, fun _ => hselected⟩
      · exact h.fill hbase
          ⟨fun hi => absurd hi hselected, fun hne => absurd hplace hne⟩
  have hdisjoint :
      Disjoint ({flag ∈ M.flags | selected flag.1} ×ˢ {Fin.last k}ᶜ)
        ({flag ∈ M.flags | ¬ selected flag.1} ×ˢ {Fin.last k}) := by
    rw [Set.disjoint_left]
    rintro ⟨flag, place⟩ ⟨-, hplace⟩ ⟨-, hplace'⟩
    exact hplace hplace'
  have hplaces : ({Fin.last k}ᶜ : Set (Fin (k + 1))).ncard = k := by
    rw [Set.ncard_compl, Set.ncard_singleton, Nat.card_fin,
      Nat.add_sub_cancel]
  rw [h.toSeparates.ncard_flags, hsites, Set.ncard_union_eq hdisjoint
      ((hfinite.subset fun _ hflag => hflag.1).prod (Set.toFinite _))
      ((hfinite.subset fun _ hflag => hflag.1).prod (Set.toFinite _)),
    Set.ncard_prod, Set.ncard_prod, hplaces, Set.ncard_singleton, mul_one,
    mul_comm]

end Pattern
end Incidence
end Polyhedra
