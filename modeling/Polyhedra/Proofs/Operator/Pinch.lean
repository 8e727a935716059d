import Mathlib
import Polyhedra.Proofs.Flag.Fault
import Polyhedra.Proofs.Operator.Shell
import Polyhedra.Proofs.Operator.Ambo
import Polyhedra.Proofs.Surface.Closed
import Polyhedra.Proofs.Surface.Degree

/-!
# Pinched vertices

On a closed mesh the faces around a vertex always follow each other in rings,
but at a pinched vertex there is more than one ring.  Dual and ambo make one
face for every vertex, dual through the faces around it and ambo through the
edges at it.  Both walk around the first ring that they meet, so both fail at
the smallest pinched vertex and at no other, and hollow, which needs the
dual, fails with it.

A mesh that is not closed has no dual either when some edge has no reverse.
The first such edge is the one that is reported.
-/

namespace Polyhedra

namespace Incidence

variable {M : Incidence ℕ ℕ}

/-- Around a vertex an edge follows another one when a face has them one
after the other. -/
theorem ambo_vertex_permutes (hM : M.Closed) (b : ℕ) :
    Permutes (ambo M (.inr b)) where
  head_unique := by
    intro v w w' h h'
    obtain ⟨i, a, c, hab, hbc, rfl, rfl⟩ := ambo_vertex_iff.mp h
    obtain ⟨j, a', c', hab', hbc', heq, rfl⟩ := ambo_vertex_iff.mp h'
    obtain rfl := Sym2.congr_right.mp heq
    obtain rfl := hM.owner_unique hbc hbc'
    rw [hM.tail_unique hab hab']
  tail_unique := by
    intro v v' w h h'
    obtain ⟨i, a, c, hab, hbc, rfl, rfl⟩ := ambo_vertex_iff.mp h
    obtain ⟨j, a', c', hab', hbc', rfl, heq⟩ := ambo_vertex_iff.mp h'
    obtain rfl := Sym2.congr_left.mp heq
    obtain rfl := hM.owner_unique hab hab'
    rw [hM.head_unique hbc hbc']
  next := by
    intro v w h
    obtain ⟨i, a, c, hab, hbc, rfl, rfl⟩ := ambo_vertex_iff.mp h
    obtain ⟨j, -, hba⟩ := hM.mate hab
    obtain ⟨z, hzb⟩ := hM.prev hba
    exact ⟨_, ambo_vertex_iff.mpr ⟨j, z, a, hzb, hba, Sym2.eq_swap, rfl⟩⟩
  prev := by
    intro v w h
    obtain ⟨i, a, c, hab, hbc, rfl, rfl⟩ := ambo_vertex_iff.mp h
    obtain ⟨j, -, hcb⟩ := hM.mate hbc
    obtain ⟨d, hbd⟩ := hM.next hcb
    exact ⟨_, ambo_vertex_iff.mpr ⟨j, c, d, hcb, hbd, rfl, Sym2.eq_swap⟩⟩

theorem ambo_permuting (hM : M.Closed) : (ambo M).Permuting where
  permutes f := by
    cases f with
    | inl i => exact (ambo_face_isCycle hM i).toPermutes
    | inr b => exact ambo_vertex_permutes hM b

/-- At a vertex there are as many edges as faces. -/
theorem ncard_ambo_vertex (hM : M.Closed) (b : ℕ) :
    {e | ∃ e', ambo M (.inr b) e e'}.ncard = {i | ∃ c, M i b c}.ncard := by
  apply ncard_eq_of_matching fun (e : Sym2 ℕ) i => ∃ c, M i b c ∧ s(b, c) = e
  · rintro e ⟨e', h⟩
    obtain ⟨i, a, c, -, hbc, rfl, -⟩ := ambo_vertex_iff.mp h
    exact ⟨i, ⟨c, hbc⟩, c, hbc, rfl⟩
  · rintro i ⟨c, hbc⟩
    obtain ⟨a, hab⟩ := hM.prev hbc
    exact ⟨s(b, c), ⟨_, ambo_vertex_iff.mpr ⟨i, a, c, hab, hbc, rfl, rfl⟩⟩,
      c, hbc, rfl⟩
  · rintro e - e' - i ⟨c, hc, rfl⟩ ⟨c', hc', rfl⟩
    rw [hM.head_unique hc hc']
  · rintro e i - j - ⟨c, hc, rfl⟩ ⟨c', hc', heq⟩
    obtain rfl := Sym2.congr_right.mp heq
    exact hM.owner_unique hc hc'

end Incidence

namespace Surface

variable {surface : Surface}

/-- The faces around every vertex in use are one ring. -/
def Unpinched (surface : Surface) : Prop :=
  ∀ face ∈ surface, ∀ v ∈ face, ∃ ring, surface.RingAt v ring

/-- The smallest vertex whose faces are more than one ring. -/
structure FirstPinched (surface : Surface) (v : ℕ) : Prop where
  used : ∃ face ∈ surface, v ∈ face
  pinched : ¬ ∃ ring, surface.RingAt v ring
  first :
    ∀ u < v, (∃ face ∈ surface, u ∈ face) → ∃ ring, surface.RingAt u ring

theorem FirstPinched.unique {v w : ℕ}
    (hv : surface.FirstPinched v)
    (hw : surface.FirstPinched w) : v = w := by
  rcases lt_trichotomy v w with hlt | rfl | hlt
  · exact absurd (hw.first v hlt hv.used) hv.pinched
  · rfl
  · exact absurd (hv.first w hlt hw.used) hw.pinched

theorem isCycle_around_iff
    (hclosed : surface.incidence.Closed)
    {v : ℕ}
    (hv : v ∈ surface.incidence.tails) :
    Incidence.IsCycle (surface.incidence.Around v) ↔
      ∃ ring, surface.RingAt v ring := by
  obtain ⟨i, w, h⟩ := hv
  constructor
  · intro hcycle
    obtain ⟨ring, -, hring⟩ := exists_ringAt_of_isCycle hclosed hcycle h
    exact ⟨ring, hring⟩
  · rintro ⟨ring, hring⟩
    exact hring.isCycle_around hclosed

theorem unpinched_iff (hclosed : surface.incidence.Closed) :
    surface.Unpinched ↔
      ∀ v ∈ surface.incidence.tails,
        Incidence.IsCycle (surface.incidence.Around v) := by
  constructor
  · intro h v hv
    obtain ⟨face, hface, hmem⟩ := mem_tails_iff.mp hv
    exact (isCycle_around_iff hclosed hv).mpr (h face hface v hmem)
  · intro h face hface v hmem
    have hv := mem_tails_iff.mpr ⟨face, hface, hmem⟩
    exact (isCycle_around_iff hclosed hv).mp (h v hv)

theorem ambo_isCycle_iff (hclosed : surface.incidence.Closed) :
    (∀ f ∈ (Incidence.ambo surface.incidence).faces,
        Incidence.IsCycle (Incidence.ambo surface.incidence f)) ↔
      surface.Unpinched := by
  rw [unpinched_iff hclosed, Incidence.faces_ambo hclosed]
  constructor
  · intro hall v hv
    exact (Incidence.ambo_vertex_isCycle_iff hclosed v).mp
      (hall _ (.inr ⟨v, hv, rfl⟩))
  · rintro hall _ (⟨i, -, rfl⟩ | ⟨v, hv, rfl⟩)
    · exact Incidence.ambo_face_isCycle hclosed i
    · exact (Incidence.ambo_vertex_isCycle_iff hclosed v).mpr (hall v hv)

end Surface

namespace Mesh
namespace Closed

variable {mesh : Mesh} (h : mesh.Closed)
include h

theorem degree_eq (v : ℕ) :
    {i | ∃ w, mesh.faces.incidence i v w}.ncard = mesh.faces.degree v :=
  (Surface.degree_eq_ncard h.simple v).symm

variable (hfits : mesh.Fits)
include hfits

theorem injOn_single_tails :
    Set.InjOn IndexKey.single mesh.faces.incidence.tails :=
  fun _ ha _ hb heq =>
    IndexKey.single_inj (h.inRange.vertex_fits hfits.vertexCount_le ha)
      (h.inRange.vertex_fits hfits.vertexCount_le hb) heq

omit h in
theorem injOn_single_faces :
    Set.InjOn IndexKey.single mesh.faces.incidence.faces :=
  fun _ ha _ hb heq => IndexKey.single_inj (face_fits hfits.faceCount_le ha)
    (face_fits hfits.faceCount_le hb) heq

/-- What the dual needs of a closed mesh, and how it fails without. -/
theorem dual_outcome :
    ((∃ out, mesh.dual = .ok out) ↔ mesh.faces.Unpinched) ∧
      (¬ mesh.faces.Unpinched → ∃ v, mesh.faces.FirstPinched v ∧
        ∃ steps < mesh.faces.degree v, mesh.dual = .error
          (FaceFault.toMeshError (toString (IndexKey.single v)) (.closedEarly
            steps (mesh.faces.degree v) : FaceFault IndexKey))) := by
  have hclosed := h.incidence
  obtain ⟨flags, hflags, hmem⟩ := Surface.exists_dualFlags hclosed
  have hface : Set.InjOn IndexKey.single
      (Incidence.faces (F := ℕ) mesh.faces.incidence.Around) := by
    rw [hclosed.faces_around]
    exact h.injOn_single_tails hfits
  have hkey : Set.InjOn IndexKey.single
      (Incidence.tails (F := ℕ) mesh.faces.incidence.Around) := by
    rw [hclosed.tails_around]
    exact injOn_single_faces hfits
  have hregistered :
      ∀ i ∈ Incidence.tails (F := ℕ) mesh.faces.incidence.Around,
        IndexKey.single i ∈ mesh.dualSites.map Prod.fst := by
    rw [hclosed.tails_around, h.faces_eq]
    exact fun i hi => mem_dualSites_iff.mpr ⟨i, hi, rfl⟩
  rw [h.inRange.dual_eq hflags, Surface.unpinched_iff hclosed,
    ← hclosed.faces_around]
  refine ⟨Blueprint.exists_build_iff hclosed.permuting_around hface hkey hmem
    hregistered _, fun hnot => ?_⟩
  obtain ⟨v, hv, hpinched, hbefore, hfault⟩ :=
    Blueprint.exists_fault hclosed.permuting_around hface hkey hmem
      hregistered (Word.dual mesh.name) hnot
  rw [hclosed.setOf_around, h.degree_eq] at hfault
  rw [hclosed.faces_around] at hv hbefore
  refine ⟨v, ⟨Surface.mem_tails_iff.mp hv, ?_, fun u hu hused => ?_⟩, hfault⟩
  · rwa [← Surface.isCycle_around_iff hclosed hv]
  · have hused' := Surface.mem_tails_iff.mpr hused
    have hslot : v ≤ IndexKey.maxIndex :=
      h.inRange.vertex_fits hfits.vertexCount_le hv
    exact (Surface.isCycle_around_iff hclosed hused').mp
      (hbefore u hused' (IndexKey.compare_single hu hslot))

/-- What ambo needs of a closed mesh, and how it fails without. -/
theorem ambo_outcome :
    ((∃ out, mesh.ambo = .ok out) ↔ mesh.faces.Unpinched) ∧
      (¬ mesh.faces.Unpinched → ∃ v, mesh.faces.FirstPinched v ∧
        ∃ steps < mesh.faces.degree v, mesh.ambo =
          .error (FaceFault.toMeshError
            (toString (IndexKey.single (mesh.faceCount + v))) (.closedEarly
              steps (mesh.faces.degree v) : FaceFault IndexKey))) := by
  have hclosed := h.incidence
  have hpermuting := Incidence.ambo_permuting hclosed
  have hface : Set.InjOn mesh.faces.amboFace
      (Incidence.ambo mesh.faces.incidence).faces := by
    rw [Incidence.faces_ambo hclosed]
    exact h.inRange.injOn_amboFace hfits
  have hkey : Set.InjOn (IndexRole.key ∘ .edge)
      (Incidence.ambo mesh.faces.incidence).tails := by
    rw [Incidence.tails_ambo hclosed]
    exact h.inRange.injOn_edgeKey hfits
  have hregistered : ∀ e ∈ (Incidence.ambo mesh.faces.incidence).tails,
      (IndexRole.key ∘ .edge) e ∈ mesh.amboSites.map Prod.fst := by
    rw [Incidence.tails_ambo hclosed]
    exact fun e he => (mem_amboSites_iff h.simple).mpr ⟨e, he, rfl⟩
  have hflags : ∀ f v w, ⟨f, v, w⟩ ∈ mesh.faces.amboFlags ↔
      (Incidence.ambo mesh.faces.incidence).rename mesh.faces.amboFace
        (IndexRole.key ∘ .edge) f v w :=
    fun _ _ _ => Surface.mem_amboFlags_iff h.simple
  have hambo : mesh.ambo =
      Blueprint.build
        { sites := mesh.amboSites, flags := mesh.faces.amboFlags }
        ("a" ++ mesh.name) := by
    unfold Mesh.ambo
    rw [requireInRange_bind h.inRange]
  rw [hambo, ← Surface.ambo_isCycle_iff hclosed]
  refine ⟨Blueprint.exists_build_iff hpermuting hface hkey hflags hregistered
    _, fun hnot => ?_⟩
  obtain ⟨f, hf, hpinched, hbefore, hfault⟩ :=
    Blueprint.exists_fault hpermuting hface hkey hflags hregistered
      ("a" ++ mesh.name) hnot
  rw [Incidence.faces_ambo hclosed] at hf hbefore
  rcases hf with ⟨i, -, rfl⟩ | ⟨v, hv, rfl⟩
  · exact absurd (Incidence.ambo_face_isCycle hclosed i) hpinched
  rw [Incidence.ncard_ambo_vertex hclosed, h.degree_eq] at hfault
  rw [Incidence.ambo_vertex_isCycle_iff hclosed,
    Surface.isCycle_around_iff hclosed hv] at hpinched
  refine ⟨v, ⟨Surface.mem_tails_iff.mp hv, hpinched, fun u hu hused => ?_⟩,
    hfault⟩
  have hused' := Surface.mem_tails_iff.mpr hused
  have hlt : mesh.faceCount + v ≤ IndexKey.maxIndex := by
    have hv' : v < mesh.vertexCount := tails_subset h.inRange hv
    unfold Fits at hfits
    omega
  have hcycle := hbefore (.inr u) (.inr ⟨u, hused', rfl⟩)
    (IndexKey.compare_single (Nat.add_lt_add_left hu _) hlt)
  exact (Surface.isCycle_around_iff hclosed hused').mp
    ((Incidence.ambo_vertex_isCycle_iff hclosed u).mp hcycle)

/-- Hollow needs the dual, and nothing else of a closed mesh. -/
theorem hollow_outcome (fraction thickness : Float) :
    ((∃ out, mesh.hollow fraction thickness = .ok out) ↔
        mesh.faces.Unpinched) ∧
      ∀ error, mesh.dual = .error error →
        mesh.hollow fraction thickness = .error error := by
  have hfail : ∀ error, mesh.dual = .error error →
      mesh.hollow fraction thickness = .error error := by
    intro error hdual
    unfold Mesh.hollow
    rw [requireInRange_bind h.inRange, hdual]
    rfl
  refine ⟨⟨?_, fun hunpinched => ?_⟩, hfail⟩
  · rintro ⟨out, hout⟩
    rw [← (h.dual_outcome hfits).1]
    cases hdual : mesh.dual with
    | ok dual => exact ⟨dual, rfl⟩
    | error error => simp [hfail error hdual] at hout
  · have hringed : mesh.Ringed := ⟨h.closed, h.simple, h.inRange, hunpinched⟩
    obtain ⟨dual, hdual⟩ := (h.dual_outcome hfits).1.mpr hunpinched
    obtain ⟨out, -, -, hout, -⟩ :=
      hringed.exists_realizes_hollow hdual fraction thickness
    exact ⟨out, hout⟩

end Closed
end Mesh

/-! ## Edges without a reverse -/

namespace Surface

variable {surface : Surface}

/-- The face `i` has the edge from `a` to `b`, whose reverse is in no face,
and no such edge comes before it: face by face, and in a face from the edge
into the first corner on. -/
structure FirstUnpaired (surface : Surface) (i a b : ℕ) : Prop where
  unpaired : ∀ j, ¬ surface.incidence j b a
  first : ∃ (face : Face) (k : ℕ), surface[i]? = some face ∧
    face.arrivals[k]? = some (a, b) ∧
    (∀ m < k, ∀ c d, face.arrivals[m]? = some (c, d) →
      ∃ j, surface.incidence j d c) ∧
    ∀ i' < i, ∀ c d, surface.incidence i' c d → ∃ j, surface.incidence j d c

theorem exists_firstUnpaired {i a b : ℕ}
    (hab : surface.incidence i a b)
    (hunpaired : ∀ j, ¬ surface.incidence j b a) :
    ∃ i a b, surface.FirstUnpaired i a b := by
  classical
  have hface :
      ∃ i a b, surface.incidence i a b ∧ ∀ j, ¬ surface.incidence j b a :=
    ⟨i, a, b, hab, hunpaired⟩
  -- the smallest face with such an edge, and the smallest corner in it
  obtain ⟨a, b, hab, hunpaired⟩ := Nat.find_spec hface
  obtain ⟨face, hi, harrival⟩ := exists_arrival_iff.mpr hab
  obtain ⟨k, hk⟩ := List.mem_iff_getElem?.mp harrival
  have hcorner : ∃ k a b : ℕ, face.arrivals[k]? = some (a, b) ∧
      ∀ j, ¬ surface.incidence j b a :=
    ⟨k, a, b, hk, hunpaired⟩
  obtain ⟨a, b, hk, hunpaired⟩ := Nat.find_spec hcorner
  refine ⟨Nat.find hface, a, b, hunpaired, face, Nat.find hcorner, hi, hk,
    ?_, ?_⟩
  · intro m hm c d hcd
    by_contra hnone
    exact Nat.find_min hcorner hm ⟨c, d, hcd, not_exists.mp hnone⟩
  · intro i' hi' c d hcd
    by_contra hnone
    exact Nat.find_min hface hi' ⟨c, d, hcd, not_exists.mp hnone⟩

theorem getElem?_lastOwners_eq_none_iff {edge : Edge} :
    surface.lastOwners[edge]? = none ↔
      ∀ j, ¬ surface.incidence j edge.1 edge.2 := by
  rw [← Option.not_isSome_iff_eq_none,
    ← Std.ExtTreeMap.mem_iff_isSome_getElem?, lastOwners,
    Std.ExtTreeMap.mem_ofList, List.contains_iff_mem, List.mem_map]
  constructor
  · intro h j hj
    exact h ⟨(edge, j), mem_ownedEdges_iff.mpr hj, rfl⟩
  · rintro h ⟨⟨_, j⟩, hentry, rfl⟩
    exact h j (mem_ownedEdges_iff.mp hentry)

theorem dualFlag_eq_error {i a b : ℕ}
    (hunpaired : ∀ j, ¬ surface.incidence j b a) :
    dualFlag surface.lastOwners (a, b) i = .error (.unpairedEdge a b i) := by
  have hnone : surface.lastOwners[Prod.swap (a, b)]? = none :=
    getElem?_lastOwners_eq_none_iff.mpr hunpaired
  unfold dualFlag
  rw [hnone]

theorem exists_dualFlag {i a b : ℕ}
    (hpaired : ∃ j, surface.incidence j b a) :
    ∃ flag, dualFlag surface.lastOwners (a, b) i = .ok flag := by
  unfold dualFlag
  cases hreverse : surface.lastOwners[Prod.swap (a, b)]? with
  | some neighbor => exact ⟨_, rfl⟩
  | none =>
      obtain ⟨j, hj⟩ := hpaired
      exact absurd hj (getElem?_lastOwners_eq_none_iff.mp hreverse j)

/-- What comes before an edge among all edges: those of earlier faces and
those into earlier corners. -/
theorem exists_split_ownedEdges {i k : ℕ} {face : Face} {edge : Edge}
    (hface : surface[i]? = some face)
    (hk : face.arrivals[k]? = some edge) :
    ∃ before after, surface.ownedEdges = before ++ (edge, i) :: after ∧
      ∀ c d j, ((c, d), j) ∈ before →
        (j < i ∧ surface.incidence j c d) ∨
        ∃ m < k, face.arrivals[m]? = some (c, d) := by
  have hindexed : surface.indexed[i]? = some (face, i) := by
    simp [indexed, hface]
  obtain ⟨hi, hentry⟩ := List.getElem?_eq_some_iff.mp hindexed
  obtain ⟨hlt, hedge⟩ := List.getElem?_eq_some_iff.mp hk
  have hown : face.arrivals.map (fun edge => (edge, i)) =
      (face.arrivals.take k).map (fun edge => (edge, i)) ++ (edge, i) ::
        (face.arrivals.drop (k + 1)).map fun edge => (edge, i) := by
    conv_lhs => rw [← List.take_append_drop k face.arrivals,
      List.drop_eq_getElem_cons hlt, hedge]
    rw [List.map_append, List.map_cons]
  have hsplit : surface.ownedEdges =
      (((surface.indexed.take i).flatMap fun entry =>
        entry.1.arrivals.map fun edge => (edge, entry.2)) ++
          (face.arrivals.take k).map fun edge => (edge, i)) ++ (edge, i) ::
        ((face.arrivals.drop (k + 1)).map (fun edge => (edge, i)) ++
          (surface.indexed.drop (i + 1)).flatMap fun entry =>
            entry.1.arrivals.map fun edge => (edge, entry.2)) := by
    change (surface.indexed.flatMap fun entry =>
      entry.1.arrivals.map fun edge => (edge, entry.2)) = _
    conv_lhs => rw [← List.take_append_drop i surface.indexed,
      List.drop_eq_getElem_cons hi, hentry]
    rw [List.flatMap_append, List.flatMap_cons]
    simp only [hown, List.append_assoc, List.cons_append]
  refine ⟨_, _, hsplit, fun c d j hbefore => ?_⟩
  rcases List.mem_append.mp hbefore with hearlier | hsame
  · obtain ⟨⟨other, j'⟩, hother, hmem⟩ := List.mem_flatMap.mp hearlier
    obtain ⟨_, harrival, heq⟩ := List.mem_map.mp hmem
    obtain ⟨rfl, rfl⟩ := Prod.mk.inj heq
    obtain ⟨m, hm, hget⟩ := List.mem_take_iff_getElem.mp hother
    have hsome : surface.indexed[m]? = some (other, j') :=
      hget ▸ List.getElem?_eq_getElem (lt_min_iff.mp hm).2
    obtain ⟨hother', rfl⟩ : surface[m]? = some other ∧ m = j' := by
      simpa [indexed] using hsome
    exact .inl ⟨(lt_min_iff.mp hm).1,
      exists_arrival_iff.mp ⟨other, hother', harrival⟩⟩
  · obtain ⟨_, harrival, heq⟩ := List.mem_map.mp hsame
    obtain ⟨rfl, rfl⟩ := Prod.mk.inj heq
    obtain ⟨m, hm, hget⟩ := List.mem_take_iff_getElem.mp harrival
    exact .inr ⟨m, (lt_min_iff.mp hm).1,
      hget ▸ List.getElem?_eq_getElem (lt_min_iff.mp hm).2⟩

theorem FirstUnpaired.dualFlags_eq {i a b : ℕ}
    (h : surface.FirstUnpaired i a b) :
    surface.dualFlags = .error (.unpairedEdge a b i) := by
  obtain ⟨face, k, hface, hk, hcorners, hfaces⟩ := h.first
  obtain ⟨before, after, hsplit, hbefore⟩ := exists_split_ownedEdges hface hk
  refine Except.mapM_eq_error_iff.mpr
    ⟨before, _, after, hsplit, ?_, dualFlag_eq_error h.unpaired⟩
  rintro ⟨⟨c, d⟩, j⟩ hentry
  apply exists_dualFlag
  rcases hbefore c d j hentry with ⟨hj, hcd⟩ | ⟨m, hm, hcd⟩
  · exact hfaces j hj c d hcd
  · exact hcorners m hm c d hcd

end Surface

namespace Mesh

variable {mesh : Mesh} (hrange : mesh.InRange)
include hrange

theorem InRange.dual_eq_notClosed {i a b : ℕ}
    (h : mesh.faces.FirstUnpaired i a b) :
    mesh.dual =
      .error
        (.notClosed s!"edge {a} -> {b} of face {i} has no reverse") := by
  unfold Mesh.dual
  rw [requireInRange_bind hrange, h.dualFlags_eq]
  rfl

/-- The dual of a mesh in range complains about closedness when some edge has
no reverse, and then about the first such edge. -/
theorem InRange.dual_eq_notClosed_iff {why : String} :
    mesh.dual = .error (.notClosed why) ↔
      ∃ i a b, mesh.faces.FirstUnpaired i a b ∧
        why = s!"edge {a} -> {b} of face {i} has no reverse" := by
  constructor
  · intro h
    obtain ⟨i, a, b, hab, hunpaired⟩ : ∃ i a b, mesh.faces.incidence i a b ∧
        ∀ j, ¬ mesh.faces.incidence j b a := by
      by_contra hnone
      have hpaired :
          ∀ entry ∈ mesh.faces.ownedEdges, ∃ flag, Surface.dualFlag
            mesh.faces.lastOwners entry.1 entry.2 = .ok flag := by
        rintro ⟨⟨a, b⟩, i⟩ hentry
        apply Surface.exists_dualFlag
        by_contra hunpaired
        exact hnone ⟨i, a, b, Surface.mem_ownedEdges_iff.mp hentry,
          not_exists.mp hunpaired⟩
      obtain ⟨flags, hflags⟩ := Except.exists_mapM_eq_ok_iff.mpr hpaired
      rw [hrange.dual_eq hflags] at h
      exact Blueprint.build_ne_notClosed rfl _ why h
    obtain ⟨i, a, b, hfirst⟩ := Surface.exists_firstUnpaired hab hunpaired
    rw [hrange.dual_eq_notClosed hfirst, Except.error.injEq,
      MeshError.notClosed.injEq] at h
    exact ⟨i, a, b, hfirst, h.symm⟩
  · rintro ⟨i, a, b, hfirst, rfl⟩
    exact hrange.dual_eq_notClosed hfirst

/-- On a closed mesh dual, ambo and hollow succeed when the faces around
every vertex in use are one ring.  Otherwise all three fail at the smallest
pinched vertex, whose walk comes back too early.  On any mesh in range the
dual complains about closedness when some edge has no reverse, and then about
the first such edge. -/
theorem InRange.unpinched_outcomes :
    (mesh.Closed → mesh.Fits →
        ((∃ out, mesh.dual = .ok out) ↔ mesh.faces.Unpinched) ∧
        ((∃ out, mesh.ambo = .ok out) ↔ mesh.faces.Unpinched) ∧
        (∀ fraction thickness,
          (∃ out, mesh.hollow fraction thickness = .ok out) ↔
          mesh.faces.Unpinched) ∧
        (¬ mesh.faces.Unpinched → ∃ v count, mesh.faces.FirstPinched v ∧
          count = mesh.faces.degree v ∧ (∃ steps < count, mesh.dual =
              .error (.inconsistentFace (toString (IndexKey.single v))
                s!"orbit closed after {steps} of {count} flags") ∧
            ∀ fraction thickness, mesh.hollow fraction thickness =
              .error (.inconsistentFace (toString (IndexKey.single v))
                s!"orbit closed after {steps} of {count} flags")) ∧
          ∃ steps < count, mesh.ambo = .error (.inconsistentFace
            (toString (IndexKey.single (mesh.faceCount + v)))
            s!"orbit closed after {steps} of {count} flags"))) ∧
      ((∃ why, mesh.dual = .error (.notClosed why)) ↔
        ∃ i a b, mesh.faces.incidence i a b ∧
          ∀ j, ¬ mesh.faces.incidence j b a) ∧
      ∀ why, mesh.dual = .error (.notClosed why) ↔
        ∃ i a b, mesh.faces.FirstUnpaired i a b ∧
          why = s!"edge {a} -> {b} of face {i} has no reverse" := by
  refine ⟨fun h hfits => ?_, ⟨?_, ?_⟩,
    fun why => hrange.dual_eq_notClosed_iff⟩
  · obtain ⟨hdual, hdualFault⟩ := h.dual_outcome hfits
    obtain ⟨hambo, hamboFault⟩ := h.ambo_outcome hfits
    refine ⟨hdual, hambo, fun fraction thickness =>
      (h.hollow_outcome hfits fraction thickness).1, fun hpinched => ?_⟩
    obtain ⟨v, hv, steps, hsteps, hdualError⟩ := hdualFault hpinched
    obtain ⟨w, hw, steps', hsteps', hamboError⟩ := hamboFault hpinched
    obtain rfl := hv.unique hw
    exact ⟨v, _, hv, rfl,
      ⟨steps, hsteps, hdualError, fun fraction thickness =>
      (h.hollow_outcome hfits fraction thickness).2 _ hdualError⟩, steps',
        hsteps', hamboError⟩
  · rintro ⟨why, h⟩
    obtain ⟨i, a, b, hfirst, -⟩ := hrange.dual_eq_notClosed_iff.mp h
    obtain ⟨face, k, hface, hk, -⟩ := hfirst.first
    exact ⟨i, a, b,
      Surface.exists_arrival_iff.mp ⟨face, hface, List.mem_of_getElem? hk⟩,
      hfirst.unpaired⟩
  · rintro ⟨i, a, b, hab, hunpaired⟩
    obtain ⟨i, a, b, hfirst⟩ := Surface.exists_firstUnpaired hab hunpaired
    exact ⟨_, hrange.dual_eq_notClosed hfirst⟩

omit hrange in
/-- Around the shared vertex the faces of one tetrahedron are never followed
by those of the other. -/
theorem pinchedTetrahedra_firstPinched :
    pinchedTetrahedra.faces.FirstPinched 3 where
  used := by decide
  pinched := by
    rintro ⟨ring, hring⟩
    -- faces that follow each other around the shared vertex are of one
    -- tetrahedron
    have hsides : ∀ entry ∈ pinchedTetrahedra.faces.indexed,
        ∀ other ∈ pinchedTetrahedra.faces.indexed,
          ∀ edge ∈ entry.1.edges, edge.1 = 3 → edge.swap ∈ other.1.edges →
            (other.2 < 4 ↔ entry.2 < 4) := by
      decide
    have hstep : ∀ i j, (i, j) ∈ Face.steps ring → (i < 4 ↔ j < 4) := by
      intro i j hij
      obtain ⟨w, ⟨face, hface, hafter⟩, other, hother, hbefore⟩ :=
        hring.around i j hij
      exact hsides (face, j) (Surface.mem_indexed_iff.mpr hface) (other, i)
        (Surface.mem_indexed_iff.mpr hother) (3, w) hafter rfl hbefore
    have hjoined : Relation.EqvGen (fun i j : ℕ => i < 4 ↔ j < 4) 1 4 :=
      Face.connected_of_steps ring hstep
        ((hring.mem_iff 1).mpr ⟨[0, 2, 3], rfl, by decide⟩)
        ((hring.mem_iff 4).mpr ⟨[3, 4, 5], rfl, by decide⟩)
    have hequivalence : Equivalence fun i j : ℕ => i < 4 ↔ j < 4 :=
      ⟨fun _ => Iff.rfl, Iff.symm, Iff.trans⟩
    exact absurd (hequivalence.eqvGen_iff.mp hjoined) (by decide)
  first := by
    intro u hu _
    have hrings : ∀ u < 3, ∃ ring ∈ [[0, 1, 2], [0, 2, 3], [0, 3, 1]],
        pinchedTetrahedra.faces.RingAt u ring := by
      decide
    obtain ⟨ring, -, hring⟩ := hrings u hu
    exact ⟨ring, hring⟩

omit hrange in
/-- Dual and ambo fail at the vertex that two tetrahedra share, and a
triangle is not closed at the edge into its first corner. -/
theorem InRange.unpinched_outcomes_pinched :
    pinchedTetrahedra.InRange ∧ pinchedTetrahedra.Closed ∧
      pinchedTetrahedra.Fits ∧ ¬ pinchedTetrahedra.faces.Unpinched ∧
      (∃ steps < 6, pinchedTetrahedra.dual = .error (.inconsistentFace
        "(4,0,0,0)" s!"orbit closed after {steps} of {6} flags")) ∧
      (∃ steps < 6, pinchedTetrahedra.ambo = .error (.inconsistentFace
        "(12,0,0,0)" s!"orbit closed after {steps} of {6} flags")) ∧
      (Solid.named ⟨[.origin, .origin, .origin], [[0, 1, 2]]⟩ "").InRange ∧
      (Solid.named ⟨[.origin, .origin, .origin], [[0, 1, 2]]⟩ "").dual =
        .error (.notClosed "edge 2 -> 0 of face 0 has no reverse") := by
  have hclosed := pinchedTetrahedra_closed
  have hfits : pinchedTetrahedra.Fits := by
    unfold Fits
    decide
  have hfirst := pinchedTetrahedra_firstPinched
  have hpinched : ¬ pinchedTetrahedra.faces.Unpinched :=
    fun h => hfirst.pinched (h [0, 2, 3] (by decide) 3 (by decide))
  obtain ⟨v, count, hv, hcount, ⟨steps, hsteps, hdual, -⟩, steps', hsteps',
      hambo⟩ :=
    (unpinched_outcomes hclosed.inRange).1 hclosed hfits |>.2.2.2 hpinched
  obtain rfl := hv.unique hfirst
  have hdegree : pinchedTetrahedra.faces.degree 3 = 6 := by decide
  have hdualKey : toString (IndexKey.single 3) = "(4,0,0,0)" := by decide
  have hamboKey :
      toString (IndexKey.single (pinchedTetrahedra.faceCount + 3)) =
        "(12,0,0,0)" := by
    decide
  obtain rfl : count = 6 := hcount.trans hdegree
  rw [hdualKey] at hdual
  rw [hamboKey] at hambo
  have hopen : (Solid.named ⟨[.origin, .origin, .origin], [[0, 1, 2]]⟩
      "").InRange := by
    decide
  refine ⟨hclosed.inRange, hclosed, hfits, hpinched, ⟨steps, hsteps, hdual⟩,
    ⟨steps', hsteps', hambo⟩, hopen, ?_⟩
  refine ((unpinched_outcomes hopen).2.2 _).mpr
    ⟨0, 2, 0, ⟨?_, [0, 1, 2], 0, rfl, rfl, ?_, ?_⟩, rfl⟩
  · rintro j ⟨face, hface, hedge⟩
    obtain rfl : face = [0, 1, 2] :=
      List.mem_singleton.mp (List.mem_of_getElem? hface)
    exact absurd hedge (by decide)
  · rintro m hm
    exact absurd hm (Nat.not_lt_zero m)
  · rintro i hi
    exact absurd hi (Nat.not_lt_zero i)

end Mesh
end Polyhedra
