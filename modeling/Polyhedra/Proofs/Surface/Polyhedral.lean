import Mathlib
import Polyhedra.Mesh.Basic
import Polyhedra.Proofs.Incidence.Cycle
import Polyhedra.Proofs.Surface.Closure

/-!
# Polyhedral surfaces

A surface is polyhedral when it passes the check of closedness, its faces are
simple and use all vertices, the faces around every vertex are one ring of at
least three, and no two faces share two edges.  This is the condition on the
incidence of the surface, together with two facts that the incidence does not
show: no face repeats a corner, and the corners are exactly the vertices.
-/

namespace Polyhedra

theorem Edge.undirected_eq_iff {a b c d : ℕ} :
    Edge.undirected (a, b) = Edge.undirected (c, d) ↔
      a = c ∧ b = d ∨ a = d ∧ b = c := by
  simp only [Edge.undirected, Prod.mk.injEq]
  omega

/-- The edges of a face without their directions. -/
def Face.sides (face : Face) : List Edge :=
  face.edges.map Edge.undirected

namespace Surface

/-- The faces around the vertex `v`, each of them once.  A face follows
another one when its edge from `v` is the reverse of an edge of the other. -/
structure RingAt (surface : Surface) (v : ℕ) (ring : List ℕ) : Prop where
  nodup : ring.Nodup
  mem_iff : ∀ i, i ∈ ring ↔ ∃ face, surface[i]? = some face ∧ v ∈ face
  around : ∀ before after, (before, after) ∈ Face.steps ring →
    ∃ w, surface.incidence after v w ∧ surface.incidence before w v

/-- A closed surface on `count` vertices with simple faces, all vertices in
use, one ring of at least three faces around every vertex, and no two faces
that share two edges. -/
structure Polyhedral (surface : Surface) (count : ℕ) : Prop where
  closed : surface.checkClosed = .ok ()
  simple : ∀ face ∈ surface, face.Nodup
  inRange : surface.InRange count
  used : ∀ v < count, ∃ face ∈ surface, v ∈ face
  ring :
    ∀ v < count, ∃ ring : List ℕ, 3 ≤ ring.length ∧ surface.RingAt v ring
  shareOne : ∀ (i j : ℕ) (face other : Face), surface[i]? = some face →
    surface[j]? = some other → i ≠ j →
    ∀ side ∈ face.sides, side ∈ other.sides →
      ∀ side' ∈ face.sides, side' ∈ other.sides → side = side'

/-- No two faces share two edges. -/
def EdgesApart (surface : Surface) : Prop :=
  ∀ (i j : ℕ) (face other : Face), surface[i]? = some face →
    surface[j]? = some other → i ≠ j →
    ∀ side ∈ face.sides, side ∈ other.sides →
      ∀ side' ∈ face.sides, side' ∈ other.sides → side = side'

variable {surface : Surface}

theorem incidence_iff_of_getElem? {i v w : ℕ} {face : Face}
    (hface : surface[i]? = some face) :
    surface.incidence i v w ↔ (v, w) ∈ Face.steps face := by
  constructor
  · rintro ⟨face', hface', hedge⟩
    obtain rfl := Option.some.inj (hface.symm.trans hface')
    exact hedge
  · exact fun hedge => ⟨face, hface, hedge⟩

theorem incidence_next {i v w : ℕ} (h : surface.incidence i v w) :
    ∃ x, surface.incidence i w x := by
  obtain ⟨face, hface, hedge⟩ := h
  obtain ⟨x, hx⟩ := Face.exists_step_from (Face.mem_of_step hedge).2
  exact ⟨x, face, hface, hx⟩

theorem mem_tails_iff {v : ℕ} :
    v ∈ surface.incidence.tails ↔ ∃ face ∈ surface, v ∈ face := by
  constructor
  · rintro ⟨i, w, face, hface, hedge⟩
    exact ⟨face, List.mem_of_getElem? hface, (Face.mem_of_step hedge).1⟩
  · rintro ⟨face, hface, hv⟩
    obtain ⟨i, hi⟩ := List.mem_iff_getElem?.mp hface
    obtain ⟨w, hw⟩ := Face.exists_step_from hv
    exact ⟨i, w, face, hi, hw⟩

/-- A vertex lies on a face when one of the edges of the face starts
there. -/
theorem exists_incidence_iff {i v : ℕ} :
    (∃ w, surface.incidence i v w) ↔
      ∃ face, surface[i]? = some face ∧ v ∈ face := by
  constructor
  · rintro ⟨w, face, hface, hedge⟩
    exact ⟨face, hface, (Face.mem_of_step hedge).1⟩
  · rintro ⟨face, hface, hv⟩
    obtain ⟨w, hw⟩ := Face.exists_step_from hv
    exact ⟨w, face, hface, hw⟩

/-- Faces without repetition are cycles. -/
theorem cyclic_of_nodup (hsimple : ∀ face ∈ surface, face.Nodup) :
    surface.incidence.Cyclic := by
  apply Incidence.Cyclic.of_isCycle
  rintro i v w ⟨face, hface, -⟩
  apply Incidence.isCycle_of_steps
    (hsimple face (List.mem_of_getElem? hface))
  exact fun v w => incidence_iff_of_getElem? hface

theorem owner_unique_of_nodup
    (hnodup : (surface.flatMap Face.edges).Nodup)
    {i j v w : ℕ}
    (h : surface.incidence i v w)
    (h' : surface.incidence j v w) : i = j := by
  rw [List.nodup_flatMap, List.pairwise_iff_getElem] at hnodup
  obtain ⟨-, hdisjoint⟩ := hnodup
  obtain ⟨face, hface, hedge⟩ := h
  obtain ⟨other, hother, hedge'⟩ := h'
  obtain ⟨hi, rfl⟩ := List.getElem?_eq_some_iff.mp hface
  obtain ⟨hj, rfl⟩ := List.getElem?_eq_some_iff.mp hother
  rcases lt_trichotomy i j with hlt | rfl | hlt
  · exact (hdisjoint i j hi hj hlt hedge hedge').elim
  · rfl
  · exact (hdisjoint j i hj hi hlt hedge' hedge).elim

theorem nodup_flatMap_edges_iff (hsimple : ∀ face ∈ surface, face.Nodup) :
    (surface.flatMap Face.edges).Nodup ↔
      ∀ i j v w, surface.incidence i v w → surface.incidence j v w →
        i = j := by
  refine ⟨fun hnodup i j v w => owner_unique_of_nodup hnodup,
    fun howner => ?_⟩
  rw [List.nodup_flatMap, List.pairwise_iff_getElem]
  refine ⟨fun face hface => Face.nodup_steps (hsimple face hface), ?_⟩
  intro i j hi hj hlt edge hedge hedge'
  have heq :=
    howner i j edge.1 edge.2 ⟨_, List.getElem?_eq_getElem hi, hedge⟩
      ⟨_, List.getElem?_eq_getElem hj, hedge'⟩
  omega

/-- A surface with simple faces passes the check exactly when its incidence
is closed and it has no empty face. -/
theorem checkClosed_iff_closed (hsimple : ∀ face ∈ surface, face.Nodup) :
    surface.checkClosed = .ok () ↔
      surface.incidence.Closed ∧ ∀ face ∈ surface, face ≠ [] := by
  rw [checkClosed_eq_ok_iff, nodup_flatMap_edges_iff hsimple]
  constructor
  · rintro ⟨hlong, howner, hmate⟩
    refine ⟨⟨cyclic_of_nodup hsimple, howner _ _ _ _, hmate _ _ _⟩, ?_⟩
    rintro face hface rfl
    simpa using hlong [] hface
  · rintro ⟨hclosed, hempty⟩
    refine ⟨fun face hface => ?_, fun _ _ _ _ => hclosed.owner_unique,
      fun _ _ _ => hclosed.mate⟩
    obtain ⟨i, hi⟩ := List.mem_iff_getElem?.mp hface
    match face, hempty face hface with
    | [v], _ =>
        have hloop : surface.incidence i v v :=
          ⟨_, hi, by simp [Face.edges, Face.successors]⟩
        exact (hclosed.ne hloop rfl).elim
    | [v, w], _ =>
        have hvw : surface.incidence i v w :=
          ⟨_, hi, by simp [Face.edges, Face.successors]⟩
        have hwv : surface.incidence i w v :=
          ⟨_, hi, by simp [Face.edges, Face.successors]⟩
        exact (hclosed.long hvw hwv rfl).elim
    | _ :: _ :: _ :: _, _ => simp

/-- On a closed surface whose faces do not share two edges, two faces are
joined at one edge at most. -/
theorem shared_of_edgesApart
    (hclosed : surface.incidence.Closed)
    (hapart : surface.EdgesApart)
    {i j v w v' w' : ℕ}
    (hi : surface.incidence i v w)
    (hj : surface.incidence j w v)
    (hi' : surface.incidence i v' w')
    (hj' : surface.incidence j w' v') : v = v' := by
  have hne : i ≠ j := hclosed.mate_ne hi hj
  obtain ⟨face, hface, hvw⟩ := id hi
  obtain ⟨other, hother, hwv⟩ := id hj
  obtain ⟨_, hface', hvw'⟩ := id hi'
  obtain ⟨_, hother', hwv'⟩ := id hj'
  obtain rfl := Option.some.inj (hface.symm.trans hface')
  obtain rfl := Option.some.inj (hother.symm.trans hother')
  have hside : ∀ {v w}, (v, w) ∈ face.edges → (w, v) ∈ other.edges →
      Edge.undirected (v, w) ∈ face.sides ∧
      Edge.undirected (v, w) ∈ other.sides := by
    intro v w hf ho
    exact ⟨List.mem_map_of_mem hf,
      List.mem_map.mpr ⟨(w, v), ho, Edge.undirected_swap (v, w)⟩⟩
  have heq :=
    hapart i j face other hface hother hne _ (hside hvw hwv).1
      (hside hvw hwv).2 _ (hside hvw' hwv').1 (hside hvw' hwv').2
  rcases Edge.undirected_eq_iff.mp heq with ⟨rfl, -⟩ | ⟨rfl, rfl⟩
  · rfl
  · exact (hclosed.long hi hi' rfl).elim

/-- When the faces around a vertex are one cycle, they can be listed as one
ring, from any of them on. -/
theorem exists_ringAt_of_isCycle
    (hclosed : surface.incidence.Closed)
    {i v w : ℕ}
    (hcycle : Incidence.IsCycle (surface.incidence.Around v))
    (h : surface.incidence i v w) :
    ∃ ring : List ℕ, ring.head? = some i ∧ surface.RingAt v ring := by
  have hmem : ∀ f, (∃ g, surface.incidence.Around v f g) ↔
      ∃ w, surface.incidence f v w := by
    intro f
    constructor
    · rintro ⟨g, x, -, hf⟩
      exact hclosed.next hf
    · rintro ⟨x, hx⟩
      exact hclosed.exists_around hx
  have hfinite : {f | ∃ g, surface.incidence.Around v f g}.Finite := by
    refine (Set.finite_lt_nat surface.length).subset ?_
    rintro f ⟨g, x, -, face, hface, -⟩
    exact (List.getElem?_eq_some_iff.mp hface).1
  have hcyclic :
      Incidence.Cyclic fun (_ : Unit) => surface.incidence.Around v :=
    .of_isCycle fun _ _ _ _ => hcycle
  obtain ⟨g, hg⟩ := hclosed.exists_around h
  obtain ⟨ring, hhead, hnodup, hring, hsteps⟩ :=
    hcyclic.exists_cycle (f := ()) hfinite hg
  refine ⟨ring, hhead, hnodup, fun f => ?_, hsteps⟩
  rw [hring, hmem, exists_incidence_iff]

/-- The faces around a vertex of a polyhedral incidence can be listed as one
ring, from any of them on. -/
theorem exists_ringAt
    (hpoly : surface.incidence.Polyhedral)
    {i v w : ℕ}
    (h : surface.incidence i v w) :
    ∃ ring : List ℕ, ring.head? = some i ∧ surface.RingAt v ring :=
  exists_ringAt_of_isCycle hpoly.toClosed (hpoly.around.isCycle v) h

/-- On a closed surface the faces of a ring follow each other as they do
around the vertex. -/
theorem RingAt.around_iff
    (hclosed : surface.incidence.Closed)
    {v : ℕ} {ring : List ℕ}
    (h : surface.RingAt v ring)
    {f g : ℕ} :
    surface.incidence.Around v f g ↔ (f, g) ∈ Face.steps ring := by
  refine ⟨fun hfg => ?_, h.around f g⟩
  obtain ⟨w, -, hf⟩ := id hfg
  obtain ⟨other, hstep⟩ :=
    Face.exists_step_from
      ((h.mem_iff f).mpr (exists_incidence_iff.mp (hclosed.next hf)))
  rwa [hclosed.around_head_unique hfg (h.around f other hstep)]

theorem RingAt.joined {v w w' i j : ℕ} {ring : List ℕ}
    (h : surface.RingAt v ring)
    (hi : surface.incidence i v w)
    (hj : surface.incidence j v w') :
    Relation.EqvGen (surface.incidence.Around v) i j :=
  Face.connected_of_steps ring h.around
    ((h.mem_iff i).mpr (exists_incidence_iff.mp ⟨w, hi⟩))
    ((h.mem_iff j).mpr (exists_incidence_iff.mp ⟨w', hj⟩))

theorem RingAt.isCycle_around
    (hclosed : surface.incidence.Closed)
    {v : ℕ} {ring : List ℕ}
    (h : surface.RingAt v ring) :
    Incidence.IsCycle (surface.incidence.Around v) :=
  Incidence.isCycle_of_steps h.nodup fun _ _ => h.around_iff hclosed

/-- In a ring there are no two faces only: they would share the two edges at
the vertex. -/
theorem RingAt.three_le_length
    (hpoly : surface.incidence.Polyhedral)
    {v : ℕ} {ring : List ℕ}
    (h : surface.RingAt v ring)
    (hne : ring ≠ []) : 3 ≤ ring.length := by
  match ring, hne with
  | [f], _ =>
      obtain ⟨w, hf, hf'⟩ :=
        h.around f f (by simp [Face.steps, Face.successors])
      exact (hpoly.mate_ne hf hf' rfl).elim
  | [f, g], _ =>
      obtain ⟨w, hg, hf⟩ :=
        h.around f g (by simp [Face.steps, Face.successors])
      obtain ⟨w', hf', hg'⟩ :=
        h.around g f (by simp [Face.steps, Face.successors])
      exact (hpoly.ne hg (hpoly.shared hf' hg' hf hg)).elim
  | _ :: _ :: _ :: _, _ => simp

/-- The shape of a polyhedral surface is that of its incidence. -/
theorem polyhedral_iff {count : ℕ} :
    surface.Polyhedral count ↔
      surface.incidence.Polyhedral ∧
      (∀ face ∈ surface, face.Nodup ∧ face ≠ []) ∧
      surface.incidence.tails = {v | v < count} := by
  constructor
  · intro h
    obtain ⟨hclosed, hempty⟩ := (checkClosed_iff_closed h.simple).mp h.closed
    have htails : surface.incidence.tails = {v | v < count} := by
      ext v
      rw [mem_tails_iff]
      exact ⟨fun ⟨face, hface, hv⟩ => h.inRange face hface v hv, h.used v⟩
    refine ⟨⟨hclosed, ?_, ?_⟩,
      fun face hface => ⟨h.simple face hface, hempty face hface⟩, htails⟩
    · intro f g v w w' hf hg
      have hv : v < count :=
        (htails ▸ Incidence.mem_tails hf : v ∈ {v | v < count})
      obtain ⟨ring, -, hring⟩ := h.ring v hv
      exact hring.joined hf hg
    · exact shared_of_edgesApart hclosed h.shareOne
  · rintro ⟨hpoly, hfaces, htails⟩
    have hsimple : ∀ face ∈ surface, face.Nodup :=
      fun face hface => (hfaces face hface).1
    have hrange : ∀ {v}, v < count ↔ ∃ face ∈ surface, v ∈ face := by
      intro v
      rw [← mem_tails_iff, htails]
      exact Iff.rfl
    refine ⟨?_, hsimple, ?_, fun v => hrange.mp, ?_, ?_⟩
    · exact (checkClosed_iff_closed hsimple).mpr
        ⟨hpoly.toClosed, fun face hface => (hfaces face hface).2⟩
    · exact fun face hface v hv => hrange.mpr ⟨face, hface, hv⟩
    · intro v hv
      obtain ⟨i, w, hi⟩ : v ∈ surface.incidence.tails := htails ▸ hv
      obtain ⟨ring, hhead, hring⟩ := exists_ringAt hpoly hi
      refine ⟨ring, hring.three_le_length hpoly ?_, hring⟩
      rintro rfl
      simp at hhead
    · intro i j face other hface hother hne side hside hside' side' hside₂
        hside₂'
      -- an edge of both faces is directed one way in the first and the other
      -- way in the second
      have hopposite : ∀ {side}, side ∈ face.sides → side ∈ other.sides →
          ∃ v w, Edge.undirected (v, w) = side ∧ surface.incidence i v w ∧
            surface.incidence j w v := by
        intro side hf ho
        obtain ⟨⟨v, w⟩, hvw, rfl⟩ := List.mem_map.mp hf
        obtain ⟨⟨x, y⟩, hxy, heq⟩ := List.mem_map.mp ho
        refine ⟨v, w, rfl, ⟨face, hface, hvw⟩, other, hother, ?_⟩
        rcases Edge.undirected_eq_iff.mp heq with ⟨rfl, rfl⟩ | ⟨rfl, rfl⟩
        · exact (hne (hpoly.owner_unique ⟨face, hface, hvw⟩
            ⟨other, hother, hxy⟩)).elim
        · exact hxy
      obtain ⟨v, w, rfl, hvw, hwv⟩ := hopposite hside hside'
      obtain ⟨v', w', rfl, hvw', hwv'⟩ := hopposite hside₂ hside₂'
      obtain rfl := hpoly.shared hvw hwv hvw' hwv'
      rw [hpoly.head_unique hvw hvw']

end Surface

/-- A mesh is polyhedral when its faces are a polyhedral surface on its
vertices. -/
def Mesh.Polyhedral (mesh : Mesh) : Prop :=
  mesh.faces.Polyhedral mesh.vertexCount

end Polyhedra
