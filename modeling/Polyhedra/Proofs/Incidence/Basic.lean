import Mathlib

/-!
# Incidences

An incidence says which faces have which directed edges.  Faces and vertices
are named by arbitrary keys, so the faces of a mesh, the flags of a
construction and the roles that it gives to its symbolic vertices are all
incidences.

An incidence is cyclic when every face is one cycle of vertices, and closed
when moreover every edge has one face on either side.  A closed incidence is
surrounded when the faces around every vertex are one cycle of at least
three, and polyhedral when they are one cycle and two faces share at most one
edge.  The conditions mention single flags only, so a construction is
examined flag by flag.  The polyhedral ones are symmetric in faces and
vertices: the faces around the vertices form a polyhedral incidence again.
-/

namespace Polyhedra

/-- `flags face tail head` says that the face `face` has the directed edge
from `tail` to `head`. -/
abbrev Incidence (F K : Type) := F → K → K → Prop

/-- Points that are joined by steps of `r` have images that are joined by
steps of `s`, when the images of one point are joined and so are some images
of the ends of every step. -/
theorem eqvGen_transport {α β : Type} {r : α → α → Prop} {s : β → β → Prop}
    (image : α → β → Prop)
    (hsame : ∀ x u v, image x u → image x v → Relation.EqvGen s u v)
    (hstep :
      ∀ x y, r x y → ∃ u v, image x u ∧ image y v ∧ Relation.EqvGen s u v)
    {x y : α} {u v : β}
    (h : Relation.EqvGen r x y)
    (hu : image x u)
    (hv : image y v) :
    Relation.EqvGen s u v := by
  have hends :
      x = y ∨ ∃ u v, image x u ∧ image y v ∧ Relation.EqvGen s u v := by
    clear hu hv
    induction h with
    | rel x y hxy => exact .inr (hstep x y hxy)
    | refl x => exact .inl rfl
    | symm x y _ ih =>
        rcases ih with rfl | ⟨u, v, hu, hv, huv⟩
        · exact .inl rfl
        · exact .inr ⟨v, u, hv, hu, huv.symm⟩
    | trans x y z _ _ ihxy ihyz =>
        rcases ihxy with rfl | ⟨u, v, hu, hv, huv⟩
        · exact ihyz
        · rcases ihyz with rfl | ⟨v', w, hv', hw, hvw⟩
          · exact .inr ⟨u, v, hu, hv, huv⟩
          · exact .inr ⟨u, w, hu, hw,
              (huv.trans _ _ _ (hsame y v v' hv hv')).trans _ _ _ hvw⟩
  rcases hends with rfl | ⟨u', v', hu', hv', huv'⟩
  · exact hsame x u v hu hv
  · exact ((hsame x u u' hu hu').trans _ _ _ huv').trans _ _ _
      (hsame y v' v hv' hv)

theorem eqvGen_of_common {α : Type} {r : α → α → Prop} {x y z : α}
    (hx : Relation.EqvGen r x z)
    (hy : Relation.EqvGen r y z) : Relation.EqvGen r x y :=
  hx.trans _ _ _ hy.symm

namespace Incidence

variable {F K G L : Type}

/-- Around the vertex `v` the face `before` is followed by the face `after`:
some edge leads to `v` in the first one and back in the second. -/
def Around (R : Incidence F K) (v : K) (before after : F) : Prop :=
  ∃ w, R after v w ∧ R before w v

/-- Every point has one point after it and one before it. -/
structure Permutes (r : K → K → Prop) : Prop where
  head_unique : ∀ {v w w'}, r v w → r v w' → w = w'
  tail_unique : ∀ {v v' w}, r v w → r v' w → v = v'
  next : ∀ {v w}, r v w → ∃ x, r w x
  prev : ∀ {v w}, r v w → ∃ u, r u v

/-- Moreover the points are joined, so they are one cycle. -/
structure IsCycle (r : K → K → Prop) : Prop extends Permutes r where
  turn : ∀ {v w v' w'}, r v w → r v' w' → Relation.EqvGen r v v'

/-- Within every face every vertex has one vertex after it and one before
it. -/
structure Permuting (R : Incidence F K) : Prop where
  permutes : ∀ f, Permutes (R f)

/-- Moreover every face is one cycle of vertices. -/
structure Cyclic (R : Incidence F K) : Prop extends R.Permuting where
  turn : ∀ {f v w v' w'},
    R f v w → R f v' w' → Relation.EqvGen (R f) v v'

/-- Moreover every face has at least three corners. -/
structure Polygonal (R : Incidence F K) : Prop extends R.Cyclic where
  ne : ∀ {f v w}, R f v w → v ≠ w
  long : ∀ {f u v w}, R f u v → R f v w → u ≠ w

/-- Moreover every directed edge belongs to one face and its reverse to
another. -/
structure Closed (R : Incidence F K) : Prop extends R.Cyclic where
  owner_unique : ∀ {f g v w}, R f v w → R g v w → f = g
  mate : ∀ {f v w}, R f v w → ∃ g, g ≠ f ∧ R g w v

/-- Moreover the faces around every vertex are one cycle of at least
three. -/
structure Surrounded (R : Incidence F K) : Prop extends R.Closed where
  fan : ∀ {f g v w w'}, R f v w → R g v w' → Relation.EqvGen (R.Around v) f g
  degree : ∀ {f g u v w}, R f u v → R f v w → R g w v → ¬ R g v u

/-- The faces around every vertex of a closed incidence are one cycle, and no
two faces share two edges. -/
structure Polyhedral (R : Incidence F K) : Prop extends R.Closed where
  fan : ∀ {f g v w w'}, R f v w → R g v w' → Relation.EqvGen (R.Around v) f g
  shared :
    ∀ {f g v w v' w'}, R f v w → R g w v → R f v' w' → R g w' v' → v = v'

theorem Permutes.swap {r : K → K → Prop} (h : Permutes r) :
    Permutes fun v w => r w v where
  head_unique := h.tail_unique
  tail_unique := h.head_unique
  next := h.prev
  prev := h.next

/-- A cycle is one in the other direction as well. -/
theorem IsCycle.swap {r : K → K → Prop} (h : IsCycle r) :
    IsCycle fun v w => r w v where
  toPermutes := h.toPermutes.swap
  turn := by
    intro v w v' w' hvw hvw'
    obtain ⟨x, hx⟩ := h.next hvw
    obtain ⟨x', hx'⟩ := h.next hvw'
    apply eqvGen_transport Eq _ _ (h.turn hx hx') rfl rfl
    · rintro x _ _ rfl rfl
      exact .refl _
    · intro a b hab
      exact ⟨a, b, rfl, rfl, .symm _ _ (.rel _ _ hab)⟩

namespace Permuting

variable {R : Incidence F K} (hR : R.Permuting)
include hR

theorem head_unique {f : F} {v w w' : K}
    (h : R f v w)
    (h' : R f v w') : w = w' :=
  (hR.permutes f).head_unique h h'

theorem tail_unique {f : F} {v v' w : K}
    (h : R f v w)
    (h' : R f v' w) : v = v' :=
  (hR.permutes f).tail_unique h h'

theorem next {f : F} {v w : K} (h : R f v w) : ∃ x, R f w x :=
  (hR.permutes f).next h

theorem prev {f : F} {v w : K} (h : R f v w) : ∃ u, R f u v :=
  (hR.permutes f).prev h

end Permuting

theorem Cyclic.isCycle {R : Incidence F K} (hR : R.Cyclic) (f : F) :
    IsCycle (R f) where
  toPermutes := hR.permutes f
  turn := hR.turn

theorem Cyclic.of_isCycle {R : Incidence F K}
    (h : ∀ f v w, R f v w → IsCycle (R f)) : R.Cyclic where
  permutes _ :=
    { head_unique := fun hw hw' => (h _ _ _ hw).head_unique hw hw'
      tail_unique := fun hv hv' => (h _ _ _ hv).tail_unique hv hv'
      next := fun hvw => (h _ _ _ hvw).next hvw
      prev := fun hvw => (h _ _ _ hvw).prev hvw }
  turn hvw hvw' := (h _ _ _ hvw).turn hvw hvw'

namespace Closed

variable {R : Incidence F K}

theorem ne
    (hR : R.Closed)
    {f : F} {v w : K}
    (h : R f v w) : v ≠ w := by
  rintro rfl
  obtain ⟨g, hne, hg⟩ := hR.mate h
  exact hne (hR.owner_unique hg h)

/-- A face has at least three corners. -/
theorem long
    (hR : R.Closed)
    {f : F} {u v w : K}
    (huv : R f u v)
    (hvw : R f v w) : u ≠ w := by
  rintro rfl
  obtain ⟨g, hne, hg⟩ := hR.mate huv
  exact hne (hR.owner_unique hg hvw)

theorem polygonal (hR : R.Closed) : R.Polygonal :=
  ⟨hR.toCyclic, hR.ne, hR.long⟩

/-- The two faces at an edge differ. -/
theorem mate_ne
    (hR : R.Closed)
    {f g : F} {v w : K}
    (hf : R f v w)
    (hg : R g w v) : f ≠ g := by
  rintro rfl
  obtain ⟨g, hne, hg'⟩ := hR.mate hf
  exact hne (hR.owner_unique hg' hg)

theorem around_head_unique
    (hR : R.Closed)
    {v : K} {f g g' : F}
    (h : R.Around v f g)
    (h' : R.Around v f g') : g = g' := by
  obtain ⟨w, hg, hf⟩ := h
  obtain ⟨w', hg', hf'⟩ := h'
  obtain rfl := hR.tail_unique hf hf'
  exact hR.owner_unique hg hg'

theorem around_tail_unique
    (hR : R.Closed)
    {v : K} {f f' g : F}
    (h : R.Around v f g)
    (h' : R.Around v f' g) : f = f' := by
  obtain ⟨w, hg, hf⟩ := h
  obtain ⟨w', hg', hf'⟩ := h'
  obtain rfl := hR.head_unique hg hg'
  exact hR.owner_unique hf hf'

theorem exists_around
    (hR : R.Closed)
    {v w : K} {f : F}
    (h : R f v w) :
    ∃ g, R.Around v f g := by
  obtain ⟨u, hu⟩ := hR.prev h
  obtain ⟨g, -, hg⟩ := hR.mate hu
  exact ⟨g, u, hg, hu⟩

theorem exists_around_before
    (hR : R.Closed)
    {v w : K} {f : F}
    (h : R f v w) :
    ∃ g, R.Around v g f := by
  obtain ⟨g, -, hg⟩ := hR.mate h
  exact ⟨g, w, h, hg⟩

/-- The faces around a vertex are cycles, possibly several of them. -/
theorem permutes_around (hR : R.Closed) (v : K) : Permutes (R.Around v) where
  head_unique := hR.around_head_unique
  tail_unique := hR.around_tail_unique
  next := by
    rintro f g ⟨w, hg, -⟩
    exact hR.exists_around hg
  prev := by
    rintro f g ⟨w, -, hf⟩
    obtain ⟨x, hx⟩ := hR.next hf
    exact hR.exists_around_before hx

theorem permuting_around (hR : R.Closed) :
    Permuting (F := K) (K := F) R.Around :=
  ⟨hR.permutes_around⟩

/-- The faces around a vertex are one cycle when they are joined. -/
theorem isCycle_around
    (hR : R.Closed)
    (hfan : ∀ {f g v w w'},
      R f v w → R g v w' → Relation.EqvGen (R.Around v) f g)
    (v : K) : IsCycle (R.Around v) where
  toPermutes := hR.permutes_around v
  turn := by
    rintro f g f' g' ⟨w, -, hf⟩ ⟨w', -, hf'⟩
    obtain ⟨x, hx⟩ := hR.next hf
    obtain ⟨x', hx'⟩ := hR.next hf'
    exact hfan hx hx'

end Closed

/-- When every flag has its reverse in another face, and no two faces have a
flag in common, the faces are closed. -/
theorem Cyclic.closed_of_across {R : Incidence F K}
    (hR : R.Cyclic)
    {across : F → K → F → Prop}
    (howner : ∀ {f g v w}, R f v w → R g v w → f = g)
    (hexists : ∀ {f v w}, R f v w → ∃ g, across f v g ∧ R g w v)
    (hne : ∀ {f v g}, across f v g → g ≠ f) : R.Closed where
  toCyclic := hR
  owner_unique := howner
  mate h := by
    obtain ⟨g, hacross, hg⟩ := hexists h
    exact ⟨g, hne hacross, hg⟩

/-- When different flags of a face have different faces across, two faces
share at most one edge. -/
theorem Closed.shared_of_across {R : Incidence F K}
    (hR : R.Closed)
    {across : F → K → F → Prop}
    (hexists : ∀ {f v w}, R f v w → ∃ g, across f v g ∧ R g w v)
    (hunique : ∀ {f v v' g}, across f v g → across f v' g → v = v')
    {f g : F} {v w v' w' : K}
    (hf : R f v w)
    (hg : R g w v)
    (hf' : R f v' w')
    (hg' : R g w' v') : v = v' := by
  obtain ⟨j, hacross, hj⟩ := hexists hf
  obtain ⟨j', hacross', hj'⟩ := hexists hf'
  obtain rfl := hR.owner_unique hj hg
  obtain rfl := hR.owner_unique hj' hg'
  exact hunique hacross hacross'

namespace Polyhedral

variable {R : Incidence F K}

/-- Two faces have one common edge. -/
theorem edge_unique
    (hR : R.Polyhedral)
    {f g : F} {v w v' w' : K}
    (hf : R f v w)
    (hg : R g w v)
    (hf' : R f v' w')
    (hg' : R g w' v') : v = v' ∧ w = w' := by
  obtain rfl := hR.shared hf hg hf' hg'
  exact ⟨rfl, hR.head_unique hf hf'⟩

/-- Two faces are not the only ones around a vertex. -/
theorem degree
    (hR : R.Polyhedral)
    {f g : F} {u v w : K}
    (huv : R f u v)
    (hvw : R f v w)
    (hwv : R g w v) : ¬ R g v u :=
  fun hvu => hR.ne huv (hR.shared huv hvu hvw hwv)

theorem surrounded (hR : R.Polyhedral) : R.Surrounded :=
  ⟨hR.toClosed, hR.fan, hR.degree⟩

/-- Two faces that follow one another around `v` and around `v'` lie on the
two sides of the edge between `v` and `v'`. -/
theorem edge_of_around
    (hR : R.Polyhedral)
    {v v' : K} {f g : F}
    (h : R.Around v f g)
    (h' : R.Around v' g f) :
    R g v v' ∧ R f v' v := by
  obtain ⟨w, hg, hf⟩ := h
  obtain ⟨w', hf', hg'⟩ := h'
  obtain rfl := hR.shared hg hf hg' hf'
  obtain rfl := hR.head_unique hg hg'
  exact ⟨hg, hf⟩

/-- The faces around the vertices of a polyhedral incidence. -/
theorem around (hR : R.Polyhedral) :
    Polyhedral (F := K) (K := F) R.Around where
  permutes := hR.permutes_around
  turn {v} := (hR.isCycle_around hR.fan v).turn
  owner_unique := by
    rintro v v' f g ⟨w, hg, hf⟩ ⟨w', hg', hf'⟩
    exact hR.shared hg hf hg' hf'
  mate := by
    rintro v f g ⟨w, hg, hf⟩
    exact ⟨w, (hR.ne hg).symm, v, hf, hg⟩
  fan := by
    rintro v v' f g g' ⟨w, -, hf⟩ ⟨w', -, hf'⟩
    obtain ⟨x, hx⟩ := hR.next hf
    obtain ⟨x', hx'⟩ := hR.next hf'
    refine eqvGen_transport Eq (fun x u v hu hv => hu ▸ hv ▸ .refl _) ?_
      (hR.turn hx hx') rfl rfl
    intro y z hyz
    obtain ⟨m, -, hm⟩ := hR.mate hyz
    exact ⟨y, z, rfl, rfl, .rel _ _ ⟨m, ⟨y, hm, hyz⟩, z, hyz, hm⟩⟩
  shared := by
    intro v v' f g f' g' h h' k k'
    exact hR.owner_unique (hR.edge_of_around h h').2
      (hR.edge_of_around k k').2

/-- When the faces of a construction around a vertex stand for the faces of
`R` around `b`, they are joined. -/
theorem fan_of_image
    (hR : R.Polyhedral)
    {S : Incidence G L} {x : L} (b : K) (image : F → G → Prop)
    (hsame :
      ∀ i f g, image i f → image i g → Relation.EqvGen (S.Around x) f g)
    (hstep : ∀ i j w, R j b w → R i w b →
      ∃ f g, image i f ∧ image j g ∧ Relation.EqvGen (S.Around x) f g)
    (himage : ∀ f w, S f x w → ∃ i c, R i b c ∧ image i f)
    {f g : G} {w w' : L}
    (hf : S f x w)
    (hg : S g x w') :
    Relation.EqvGen (S.Around x) f g := by
  obtain ⟨i, c, hbc, hi⟩ := himage f w hf
  obtain ⟨j, c', hbc', hj⟩ := himage g w' hg
  apply eqvGen_transport image hsame _ (hR.fan hbc hbc') hi hj
  rintro i j ⟨w, hj, hi⟩
  exact hstep i j w hj hi

/-- One face of the construction for every face of `R` around `b`. -/
theorem fan_of_map
    (hR : R.Polyhedral)
    {S : Incidence G L} {x : L} (b : K) (ring : F → G)
    (hstep : ∀ {i j w}, R j b w → R i w b →
      Relation.EqvGen (S.Around x) (ring i) (ring j))
    (hring : ∀ {f w}, S f x w → ∃ i c, R i b c ∧ ring i = f)
    {f g : G} {w w' : L}
    (hf : S f x w)
    (hg : S g x w') :
    Relation.EqvGen (S.Around x) f g := by
  apply hR.fan_of_image b (fun i f => ring i = f) _ _ _ hf hg
  · rintro i _ _ rfl rfl
    exact .refl _
  · intro i j w hj hi
    exact ⟨_, _, rfl, rfl, hstep hj hi⟩
  · intro f w h
    exact hring h

/-- One face of the construction for every edge of `R` that leads to `b`. -/
theorem fan_of_arrivals
    (hR : R.Polyhedral)
    {S : Incidence G L} {x : L} (b : K) (ring : F → K → G)
    (hstep : ∀ {i j u w}, R j u b → R j b w → R i w b →
      Relation.EqvGen (S.Around x) (ring i w) (ring j u))
    (hring : ∀ {f w}, S f x w → ∃ i a c, R i a b ∧ R i b c ∧ ring i a = f)
    {f g : G} {w w' : L}
    (hf : S f x w)
    (hg : S g x w') :
    Relation.EqvGen (S.Around x) f g := by
  apply hR.fan_of_image b (fun i f => ∃ a, R i a b ∧ ring i a = f) _ _ _ hf
    hg
  · rintro i _ _ ⟨a, ha, rfl⟩ ⟨a', ha', rfl⟩
    rw [hR.tail_unique ha ha']
    exact .refl _
  · intro i j w hj hi
    obtain ⟨u, hu⟩ := hR.prev hj
    exact ⟨_, _, ⟨w, hi, rfl⟩, ⟨u, hu, rfl⟩, hstep hu hj hi⟩
  · intro f w h
    obtain ⟨i, a, c, hab, hbc, rfl⟩ := hring h
    exact ⟨i, c, hbc, a, hab, rfl⟩

/-- When every face of `R` around `b` has a wall on its edge from `b` and one
on its edge to `b`, the walls are joined within a face and across an edge. -/
theorem fan_of_walls
    (hR : R.Polyhedral)
    {S : Incidence G L} {x : L} (b : K) (wall : F → K → G)
    (hjoin : ∀ {i a c}, R i a b → R i b c →
      Relation.EqvGen (S.Around x) (wall i a) (wall i b))
    (hrim : ∀ {i j c}, R i c b → R j b c →
      Relation.EqvGen (S.Around x) (wall i c) (wall j b))
    (hwall : ∀ {f w}, S f x w →
      ∃ i c, R i b c ∧ (wall i b = f ∨ ∃ a, R i a b ∧ wall i a = f))
    {f g : G} {w w' : L}
    (hf : S f x w)
    (hg : S g x w') :
    Relation.EqvGen (S.Around x) f g := by
  have hsame :
      ∀ {i c f}, R i b c → (wall i b = f ∨ ∃ a, R i a b ∧ wall i a = f) →
        Relation.EqvGen (S.Around x) f (wall i b) := by
    rintro i c f hbc (rfl | ⟨a, hab, rfl⟩)
    · exact .refl _
    · exact hjoin hab hbc
  apply hR.fan_of_image b (fun i f => (∃ c, R i b c) ∧
    (wall i b = f ∨ ∃ a, R i a b ∧ wall i a = f)) _ _ _ hf hg
  · rintro i f g ⟨⟨c, hbc⟩, hf⟩ ⟨-, hg⟩
    exact eqvGen_of_common (hsame hbc hf) (hsame hbc hg)
  · intro i j c hj hi
    exact ⟨_, _, ⟨hR.next hi, .inr ⟨c, hi, rfl⟩⟩, ⟨⟨c, hj⟩, .inl rfl⟩,
      hrim hi hj⟩
  · intro f w h
    obtain ⟨i, c, hbc, hf⟩ := hwall h
    exact ⟨i, c, hbc, ⟨c, hbc⟩, hf⟩

end Polyhedral

/-! ## Renaming -/

/-- The incidence under other names. -/
def rename (R : Incidence F K) (onFace : F → G) (onKey : K → L) :
    Incidence G L :=
  fun g v w => ∃ f a b, R f a b ∧ onFace f = g ∧ onKey a = v ∧ onKey b = w

/-- The vertices that some flag starts at. -/
def tails (R : Incidence F K) : Set K := {v | ∃ f w, R f v w}

def faces (R : Incidence F K) : Set F := {f | ∃ v w, R f v w}

def flags (R : Incidence F K) : Set (F × K × K) :=
  {flag | R flag.1 flag.2.1 flag.2.2}

theorem mem_tails {R : Incidence F K} {f : F} {v w : K} (h : R f v w) :
    v ∈ R.tails :=
  ⟨f, w, h⟩

theorem mem_faces {R : Incidence F K} {f : F} {v w : K} (h : R f v w) :
    f ∈ R.faces :=
  ⟨v, w, h⟩

theorem Permuting.head_mem_tails {R : Incidence F K}
    (hR : R.Permuting)
    {f : F} {v w : K}
    (h : R f v w) : w ∈ R.tails := by
  obtain ⟨x, hx⟩ := hR.next h
  exact ⟨f, x, hx⟩

section Rename

variable {R : Incidence F K} {onFace : F → G} {onKey : K → L}

theorem rename_of {f : F} {v w : K} (h : R f v w) :
    R.rename onFace onKey (onFace f) (onKey v) (onKey w) :=
  ⟨f, v, w, h, rfl, rfl, rfl⟩

theorem rename_rename {H N : Type} (R : Incidence F K) (onFace : F → G)
    (onKey : K → L) (toFace : G → H) (toKey : L → N) :
    (R.rename onFace onKey).rename toFace toKey =
      R.rename (toFace ∘ onFace) (toKey ∘ onKey) := by
  ext i v w
  constructor
  · rintro ⟨_, _, _, ⟨f, a, b, hab, rfl, rfl, rfl⟩, rfl, rfl, rfl⟩
    exact rename_of hab
  · rintro ⟨f, a, b, hab, rfl, rfl, rfl⟩
    exact rename_of (rename_of hab)

/-- Names that do not change anything. -/
theorem Cyclic.rename_eq_self {R : Incidence F K}
    (hR : R.Cyclic)
    {onFace : F → F} {onKey : K → K}
    (hface : ∀ f ∈ R.faces, onFace f = f)
    (hkey : ∀ v ∈ R.tails, onKey v = v) :
    R.rename onFace onKey = R := by
  have hends :
      ∀ {f v w}, R f v w → onFace f = f ∧ onKey v = v ∧ onKey w = w :=
    fun h =>
    ⟨hface _ (mem_faces h), hkey _ (mem_tails h),
      hkey _ (hR.head_mem_tails h)⟩
  ext f v w
  constructor
  · rintro ⟨g, a, b, h, rfl, rfl, rfl⟩
    obtain ⟨hg, ha, hb⟩ := hends h
    rwa [hg, ha, hb]
  · intro h
    obtain ⟨hf, hv, hw⟩ := hends h
    exact ⟨f, v, w, h, hf, hv, hw⟩

/-- Under distinct names a face has the flags that it had. -/
theorem rename_iff_of_mem_faces
    (hface : Set.InjOn onFace R.faces)
    {f : F}
    (hf : f ∈ R.faces)
    {x y : L} :
    R.rename onFace onKey (onFace f) x y ↔
      ∃ v w, R f v w ∧ onKey v = x ∧ onKey w = y := by
  constructor
  · rintro ⟨g, v, w, hvw, hg, rfl, rfl⟩
    obtain rfl := hface (mem_faces hvw) hf hg
    exact ⟨v, w, hvw, rfl, rfl⟩
  · rintro ⟨v, w, hvw, rfl, rfl⟩
    exact rename_of hvw

/-- Distinct names keep the order of the vertices within the faces. -/
theorem Permuting.rename
    (hR : R.Permuting)
    (hface : Set.InjOn onFace R.faces)
    (hkey : Set.InjOn onKey R.tails) :
    (R.rename onFace onKey).Permuting where
  permutes g :=
    { head_unique := by
        rintro _ _ _ ⟨f, v, w, h, rfl, rfl, rfl⟩
          ⟨f', v', w', h', hf, hv, rfl⟩
        obtain rfl := hface (mem_faces h') (mem_faces h) hf
        obtain rfl := hkey (mem_tails h') (mem_tails h) hv
        rw [hR.head_unique h h']
      tail_unique := by
        rintro _ _ _ ⟨f, v, w, h, rfl, rfl, rfl⟩
          ⟨f', v', w', h', hf, rfl, hw⟩
        obtain rfl := hface (mem_faces h') (mem_faces h) hf
        obtain rfl := hkey (hR.head_mem_tails h') (hR.head_mem_tails h) hw
        rw [hR.tail_unique h h']
      next := by
        rintro _ _ ⟨f, v, w, h, rfl, rfl, rfl⟩
        obtain ⟨x, hx⟩ := hR.next h
        exact ⟨onKey x, rename_of hx⟩
      prev := by
        rintro _ _ ⟨f, v, w, h, rfl, rfl, rfl⟩
        obtain ⟨u, hu⟩ := hR.prev h
        exact ⟨onKey u, rename_of hu⟩ }

/-- Distinct names keep an incidence cyclic. -/
theorem Cyclic.rename
    (hR : R.Cyclic)
    (hface : Set.InjOn onFace R.faces)
    (hkey : Set.InjOn onKey R.tails) :
    (R.rename onFace onKey).Cyclic where
  toPermuting := hR.toPermuting.rename hface hkey
  turn := by
    rintro _ _ _ _ _ ⟨f, v, w, h, rfl, rfl, rfl⟩
      ⟨f', v', w', h', hf, rfl, rfl⟩
    obtain rfl := hface (mem_faces h') (mem_faces h) hf
    refine eqvGen_transport (fun v u => onKey v = u) ?_ ?_ (hR.turn h h') rfl
      rfl
    · rintro x _ _ rfl rfl
      exact .refl _
    · intro x y hxy
      exact ⟨_, _, rfl, rfl, .rel _ _ (rename_of hxy)⟩

theorem Closed.rename
    (hR : R.Closed)
    (hface : Set.InjOn onFace R.faces)
    (hkey : Set.InjOn onKey R.tails) :
    (R.rename onFace onKey).Closed where
  toCyclic := hR.toCyclic.rename hface hkey
  owner_unique := by
    rintro _ _ _ _ ⟨f, v, w, h, rfl, rfl, rfl⟩ ⟨f', v', w', h', rfl, hv, hw⟩
    obtain rfl := hkey (mem_tails h') (mem_tails h) hv
    obtain rfl := hkey (hR.head_mem_tails h') (hR.head_mem_tails h) hw
    rw [hR.owner_unique h h']
  mate := by
    rintro _ _ _ ⟨f, v, w, h, rfl, rfl, rfl⟩
    obtain ⟨g, hne, hg⟩ := hR.mate h
    exact ⟨onFace g,
      fun heq => hne (hface (mem_faces hg) (mem_faces h) heq), rename_of hg⟩

/-- Distinct names do not make an incidence closed. -/
theorem Cyclic.closed_rename_iff
    (hR : R.Cyclic)
    (hface : Set.InjOn onFace R.faces)
    (hkey : Set.InjOn onKey R.tails) :
    (R.rename onFace onKey).Closed ↔ R.Closed := by
  refine ⟨fun h => ⟨hR, ?_, ?_⟩, fun h => h.rename hface hkey⟩
  · intro f g v w hf hg
    exact hface (mem_faces hf) (mem_faces hg)
      (h.owner_unique (rename_of hf) (rename_of hg))
  · intro f v w hf
    obtain ⟨_, hne, g, w', v', hg, rfl, hw, hv⟩ := h.mate (rename_of hf)
    obtain rfl := hkey (mem_tails hg) (hR.head_mem_tails hf) hw
    obtain rfl := hkey (hR.head_mem_tails hg) (mem_tails hf) hv
    exact ⟨g, fun heq => hne (congrArg onFace heq), hg⟩

theorem Polyhedral.rename
    (hR : R.Polyhedral)
    (hface : Set.InjOn onFace R.faces)
    (hkey : Set.InjOn onKey R.tails) :
    (R.rename onFace onKey).Polyhedral where
  toClosed := hR.toClosed.rename hface hkey
  fan := by
    rintro _ _ _ _ _ ⟨f, v, w, h, rfl, rfl, rfl⟩
      ⟨f', v', w', h', rfl, hv, rfl⟩
    obtain rfl := hkey (mem_tails h') (mem_tails h) hv
    refine eqvGen_transport (fun f g => onFace f = g) ?_ ?_ (hR.fan h h') rfl
      rfl
    · rintro x _ _ rfl rfl
      exact .refl _
    · rintro f g ⟨x, hg, hf⟩
      exact ⟨_, _, rfl, rfl, .rel _ _ ⟨onKey x, rename_of hg, rename_of hf⟩⟩
  shared := by
    rintro _ _ _ _ _ _ ⟨f, v, w, h, rfl, rfl, rfl⟩ ⟨g, w₁, v₁, hg, rfl, hw₁,
      hv₁⟩ ⟨f', v', w', h', hf', rfl, rfl⟩ ⟨g', w₂, v₂, hg', hg'eq, hw₂, hv₂⟩
    obtain rfl := hface (mem_faces h') (mem_faces h) hf'
    obtain rfl := hface (mem_faces hg') (mem_faces hg) hg'eq
    obtain rfl := hkey (mem_tails hg) (hR.head_mem_tails h) hw₁
    obtain rfl := hkey (hR.head_mem_tails hg) (mem_tails h) hv₁
    obtain rfl := hkey (mem_tails hg') (hR.head_mem_tails h') hw₂
    obtain rfl := hkey (hR.head_mem_tails hg') (mem_tails h') hv₂
    rw [hR.shared h hg h' hg']

theorem tails_rename : (R.rename onFace onKey).tails = onKey '' R.tails := by
  ext v
  constructor
  · rintro ⟨_, _, f, a, b, h, -, rfl, -⟩
    exact ⟨a, mem_tails h, rfl⟩
  · rintro ⟨a, ⟨f, b, h⟩, rfl⟩
    exact mem_tails (rename_of h)

theorem faces_rename :
    (R.rename onFace onKey).faces = onFace '' R.faces := by
  ext g
  constructor
  · rintro ⟨_, _, f, a, b, h, rfl, -, -⟩
    exact ⟨f, mem_faces h, rfl⟩
  · rintro ⟨f, ⟨a, b, h⟩, rfl⟩
    exact mem_faces (rename_of h)

theorem flags_rename :
    (R.rename onFace onKey).flags =
      (fun flag : F × K × K =>
        (onFace flag.1, onKey flag.2.1, onKey flag.2.2)) '' R.flags := by
  ext ⟨g, v, w⟩
  constructor
  · rintro ⟨f, a, b, h, rfl, rfl, rfl⟩
    exact ⟨(f, a, b), h, rfl⟩
  · rintro ⟨⟨f, a, b⟩, h, heq⟩
    cases heq
    exact rename_of h

end Rename

/-! ## Counting -/

/-- Twice the Euler characteristic: every edge has two flags. -/
noncomputable def doubleEuler (R : Incidence F K) : ℤ :=
  2 * R.tails.ncard + 2 * R.faces.ncard - R.flags.ncard

theorem Cyclic.ncard_rename {R : Incidence F K}
    (hR : R.Cyclic)
    {onFace : F → G} {onKey : K → L}
    (hface : Set.InjOn onFace R.faces)
    (hkey : Set.InjOn onKey R.tails) :
    (R.rename onFace onKey).tails.ncard = R.tails.ncard ∧
      (R.rename onFace onKey).faces.ncard = R.faces.ncard ∧
      (R.rename onFace onKey).flags.ncard = R.flags.ncard := by
  refine ⟨?_, ?_, ?_⟩
  · rw [tails_rename, hkey.ncard_image]
  · rw [faces_rename, hface.ncard_image]
  · rw [flags_rename, Set.InjOn.ncard_image]
    rintro ⟨f, v, w⟩ h ⟨f', v', w'⟩ h' heq
    simp only [Prod.mk.injEq] at heq
    obtain ⟨hf, hv, hw⟩ := heq
    obtain rfl := hface (mem_faces h) (mem_faces h') hf
    obtain rfl := hkey (mem_tails h) (mem_tails h') hv
    obtain rfl := hR.head_unique h h'
    rfl

theorem Cyclic.doubleEuler_rename {R : Incidence F K}
    (hR : R.Cyclic)
    {onFace : F → G} {onKey : K → L}
    (hface : Set.InjOn onFace R.faces)
    (hkey : Set.InjOn onKey R.tails) :
    (R.rename onFace onKey).doubleEuler = R.doubleEuler := by
  obtain ⟨htails, hfaces, hflags⟩ := hR.ncard_rename hface hkey
  rw [doubleEuler, doubleEuler, htails, hfaces, hflags]

end Incidence
end Polyhedra
