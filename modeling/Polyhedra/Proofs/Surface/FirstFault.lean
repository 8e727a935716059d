import Mathlib
import Polyhedra.Proofs.Flag.Key
import Polyhedra.Proofs.Surface.Count

/-!
# What the check of a surface finds

The check goes through the faces in order and through the edges of a face
from its first corner on.  It stops at the first face with fewer than three
corners or at the first edge that was met before, in an earlier face or in
the same one.  When it passes, every edge is met once in each direction, so
the faces have twice as many sides as there are edges; for this the faces
need not be simple.
-/

namespace Polyhedra

/-! ## Wording -/

/-- A number with a blank after it can be read off a text. -/
theorem Label.number_append_inj {n m : ℕ} {tail other : String}
    (h : toString n ++ tail = toString m ++ other)
    (htail : tail.toList.head? = some ' ')
    (hother : other.toList.head? = some ' ') :
    n = m ∧ tail = other := by
  have hblank : ∀ {text : String}, text.toList.head? = some ' ' →
      text.toList.takeWhile Char.isDigit = [] := by
    intro text htext
    obtain ⟨rest, hrest⟩ := List.head?_eq_some_iff.mp htext
    simp [hrest]
  obtain ⟨hnumber, hrest⟩ :=
    toDigits_append_inj (by simpa using congrArg String.toList h)
      (hblank htail) (hblank hother)
  exact ⟨hnumber, String.toList_inj.mp hrest⟩

namespace ClosureFault

variable (face count tail head first second : ℕ)

theorem explanation_tooFewCorners :
    (tooFewCorners face count).explanation =
      "face " ++
      (toString face ++ (" has " ++ (toString count ++ " vertices"))) := by
  simp only [← String.append_assoc]
  rfl

theorem explanation_repeatedEdge :
    (repeatedEdge tail head first second).explanation =
      "directed edge " ++
      (toString tail ++ (" -> " ++ (toString head ++ (" appears in faces " ++
        (toString first ++ (" and " ++ toString second)))))) := by
  simp only [← String.append_assoc]
  rfl

theorem explanation_unpairedEdge :
    (unpairedEdge tail head face).explanation =
      "edge " ++
      (toString tail ++ (" -> " ++ (toString head ++
        (" of face " ++ (toString face ++ " has no reverse"))))) := by
  simp only [← String.append_assoc]
  rfl

theorem explanation_bothWays : (bothWays tail head face).explanation =
    "edge " ++ (toString tail ++ (" -> " ++ (toString head ++
      (" is traversed both ways by face " ++ toString face)))) := by
  simp only [← String.append_assoc]
  rfl

/-- The wording of a fault determines it. -/
theorem explanation_injective : Function.Injective explanation := by
  have hnumber := @Label.number_append_inj
  have hletters :
      ∀ {letters a b : String}, letters ++ a = letters ++ b → a = b :=
    (String.append_right_inj _).mp
  intro fault other heq
  cases fault <;> cases other <;>
    simp only [explanation_tooFewCorners, explanation_repeatedEdge,
      explanation_unpairedEdge, explanation_bothWays,
      String.append_right_inj] at heq
  -- faults of different kinds differ in the first letter or after the second
  -- number
  case tooFewCorners.tooFewCorners =>
    obtain ⟨rfl, hcount⟩ := hnumber heq (by simp) (by simp)
    obtain ⟨rfl, -⟩ := hnumber (hletters hcount) (by simp) (by simp)
    rfl
  case repeatedEdge.repeatedEdge =>
    obtain ⟨rfl, hhead⟩ := hnumber heq (by simp) (by simp)
    obtain ⟨rfl, hfirst⟩ := hnumber (hletters hhead) (by simp) (by simp)
    obtain ⟨rfl, hsecond⟩ := hnumber (hletters hfirst) (by simp) (by simp)
    obtain rfl := Nat.repr_inj.mp (hletters hsecond)
    rfl
  case unpairedEdge.unpairedEdge =>
    obtain ⟨rfl, hhead⟩ := hnumber heq (by simp) (by simp)
    obtain ⟨rfl, hface⟩ := hnumber (hletters hhead) (by simp) (by simp)
    obtain ⟨rfl, -⟩ := hnumber (hletters hface) (by simp) (by simp)
    rfl
  case bothWays.bothWays =>
    obtain ⟨rfl, hhead⟩ := hnumber heq (by simp) (by simp)
    obtain ⟨rfl, hface⟩ := hnumber (hletters hhead) (by simp) (by simp)
    obtain rfl := Nat.repr_inj.mp (hletters hface)
    rfl
  case unpairedEdge.bothWays | bothWays.unpairedEdge =>
    obtain ⟨-, hhead⟩ := hnumber heq (by simp) (by simp)
    obtain ⟨-, hface⟩ := hnumber (hletters hhead) (by simp) (by simp)
    exact absurd (congrArg String.toList hface) (by simp)
  all_goals exact absurd (congrArg String.toList heq) (by simp)

end ClosureFault

/-! ## The first fault -/

namespace EdgeOwners

variable {owners : EdgeOwners} {entries : List (Edge × ℕ)}
  (h : owners.Records entries)
include h

theorem Records.claim_eq_error_iff {index : ℕ} {edge : Edge}
    {fault : ClosureFault} :
    owners.claim index edge = .error fault ↔
      ∃ first, (edge, first) ∈ entries ∧
        .repeatedEdge edge.1 edge.2 first index = fault := by
  rw [claim]
  simp only [← h.2 edge]
  cases owners[edge]? <;> simp

/-- Entering the edges of a face fails at the first edge that was met
before. -/
theorem Records.claims_eq_error_iff {edges : List Edge} {index : ℕ}
    {fault : ClosureFault} :
    edges.foldlM (fun owners edge => owners.claim index edge) owners =
        .error fault ↔
      ∃ (k : ℕ) (edge : Edge) (first : ℕ),
        ((entries ++ entriesOf (edges.take k) index).map Prod.fst).Nodup ∧
        edges[k]? = some edge ∧
        (edge, first) ∈ entries ++ entriesOf (edges.take k) index ∧
        .repeatedEdge edge.1 edge.2 first index = fault := by
  rw [Except.foldlM_eq_error_iff]
  constructor
  · rintro ⟨k, edge, reached, hreached, hedge, herror⟩
    have hrecords := h.of_claims hreached
    obtain ⟨first, hfirst, heq⟩ := hrecords.claim_eq_error_iff.mp herror
    exact ⟨k, edge, first, hrecords.1, hedge, hfirst, heq⟩
  · rintro ⟨k, edge, first, hnodup, hedge, hfirst, heq⟩
    obtain ⟨reached, hreached⟩ := h.exists_claims hnodup
    exact ⟨k, edge, reached, hreached, hedge,
      (h.of_claims hreached).claim_eq_error_iff.mpr ⟨first, hfirst, heq⟩⟩

end EdgeOwners

namespace Surface

variable {surface : Surface}

/-- The edges that are met before the edge number `k` of the face `i`, each
with its face: those of all faces before, and the first `k` of the face
itself. -/
def edgesBefore (surface : Surface) (i k : ℕ) : List (Edge × ℕ) :=
  EdgeOwners.entriesOfFaces (surface.indexed.take i) ++
    EdgeOwners.entriesOf ((surface.getD i []).edges.take k) i

/-- Nothing is wrong before the edge number `k` of the face `i`. -/
structure SoundBefore (surface : Surface) (i k : ℕ) : Prop where
  long : ∀ face ∈ surface.take i, 3 ≤ face.length
  distinct : ((surface.edgesBefore i k).map Prod.fst).Nodup

/-- The first fault is that the face `i` has `count` corners only. -/
structure FirstShort (surface : Surface) (i count : ℕ) : Prop where
  sound : surface.SoundBefore i 0
  length : surface[i]?.map List.length = some count
  short : count < 3

/-- The first fault is that the edge from `tail` to `head` comes again in the
face `second`, after it was met in the face `first`. -/
def FirstRepeated (surface : Surface) (tail head first second : ℕ) : Prop :=
  ∃ (face : Face) (k : ℕ), surface[second]? = some face ∧ 3 ≤ face.length ∧
    face.edges[k]? = some (tail, head) ∧ surface.SoundBefore second k ∧
    ((tail, head), first) ∈ surface.edgesBefore second k

theorem edgesBefore_zero (i : ℕ) :
    surface.edgesBefore i 0 =
      EdgeOwners.entriesOfFaces (surface.indexed.take i) := by
  simp [edgesBefore]

theorem edgesBefore_of_getElem? {i : ℕ} {face : Face}
    (hface : surface[i]? = some face)
    (k : ℕ) :
    surface.edgesBefore i k =
      EdgeOwners.entriesOfFaces (surface.indexed.take i) ++
      EdgeOwners.entriesOf (face.edges.take k) i := by
  rw [edgesBefore, List.getD_eq_getElem?_getD, hface, Option.getD_some]

theorem forall_take_indexed_iff {p : Face → Prop} {i : ℕ} :
    (∀ entry ∈ surface.indexed.take i, p entry.1) ↔
      ∀ face ∈ surface.take i, p face := by
  have hfaces : (surface.indexed.take i).map Prod.fst = surface.take i := by
    rw [List.map_take, indexed, List.zipIdx_map_fst]
  rw [← hfaces, List.forall_mem_map]

theorem getElem?_indexed {i : ℕ} :
    surface.indexed[i]? = surface[i]?.map fun face => (face, i) := by
  simp [indexed, List.getElem?_zipIdx]

theorem indexed_take (i : ℕ) :
    indexed (surface.take i) = surface.indexed.take i := by
  refine List.ext_getElem? fun k => ?_
  rw [getElem?_indexed, List.getElem?_take, List.getElem?_take]
  split
  · rw [getElem?_indexed]
  · rfl

/-- When the edges of the first `i` faces can be listed, nothing is wrong
with these faces. -/
theorem soundBefore_of_edgeOwners_take {i : ℕ} {owners : EdgeOwners}
    (howners : edgeOwners (surface.take i) = .ok owners) :
    owners.Records (surface.edgesBefore i 0) ∧ surface.SoundBefore i 0 := by
  rw [edgeOwners, indexed_take] at howners
  obtain ⟨hrecords, hlong⟩ := EdgeOwners.records_empty.of_claimFaces howners
  rw [List.nil_append, ← edgesBefore_zero] at hrecords
  exact ⟨hrecords, forall_take_indexed_iff.mp hlong, hrecords.1⟩

theorem SoundBefore.exists_edgeOwners_take {i k : ℕ}
    (h : surface.SoundBefore i k) :
    ∃ owners, edgeOwners (surface.take i) = .ok owners := by
  rw [edgeOwners, indexed_take]
  refine EdgeOwners.records_empty.exists_claimFaces
    (forall_take_indexed_iff.mpr h.long) ?_
  have hdistinct := h.distinct
  rw [edgesBefore, List.map_append] at hdistinct
  exact hdistinct.of_append_left

/-- The map of the edges cannot be made exactly when a face cannot be added
to the map of the faces before it. -/
theorem edgeOwners_eq_error_iff_claimFace {fault : ClosureFault} :
    surface.edgeOwners = .error fault ↔
      ∃ (i : ℕ) (face : Face) (owners : EdgeOwners),
        surface[i]? = some face ∧ edgeOwners (surface.take i) = .ok owners ∧
        owners.claimFace face i = .error fault := by
  simp only [edgeOwners, indexed_take]
  rw [Except.foldlM_eq_error_iff]
  constructor
  · rintro ⟨i, ⟨face, index⟩, owners, howners, hface, herror⟩
    rw [getElem?_indexed, Option.map_eq_some_iff] at hface
    obtain ⟨_, hface, heq⟩ := hface
    obtain ⟨rfl, rfl⟩ := Prod.mk.inj heq
    exact ⟨i, _, owners, hface, howners, herror⟩
  · rintro ⟨i, face, owners, hface, howners, herror⟩
    refine ⟨i, (face, i), owners, howners, ?_, herror⟩
    rw [getElem?_indexed, hface]
    rfl

/-- The map of the edges cannot be made exactly when there is a first fault
of the two kinds. -/
theorem edgeOwners_eq_error_iff {fault : ClosureFault} :
    surface.edgeOwners = .error fault ↔
      (∃ i count, surface.FirstShort i count ∧
        .tooFewCorners i count = fault) ∨
      ∃ tail head first second,
        surface.FirstRepeated tail head first second ∧
        .repeatedEdge tail head first second = fault := by
  rw [edgeOwners_eq_error_iff_claimFace]
  constructor
  · rintro ⟨i, face, owners, hface, howners, herror⟩
    obtain ⟨hrecords, hbefore⟩ := soundBefore_of_edgeOwners_take howners
    simp only [EdgeOwners.claimFace] at herror
    split at herror
    next hshort =>
        obtain rfl := Except.error.inj herror
        exact .inl ⟨i, _, ⟨hbefore, by rw [hface]; rfl, hshort⟩, rfl⟩
    next hlong =>
        obtain ⟨k, ⟨tail, head⟩, first, hnodup, hedge, hfirst, rfl⟩ :=
          hrecords.claims_eq_error_iff.mp herror
        rw [edgesBefore_zero, ← edgesBefore_of_getElem? hface]
          at hnodup hfirst
        exact .inr ⟨tail, head, first, i, ⟨_, k, hface, not_lt.mp hlong,
          hedge, ⟨hbefore.long, hnodup⟩, hfirst⟩, rfl⟩
  · rintro (⟨i, count, h, rfl⟩ | ⟨tail, head, first, i, hrepeated, rfl⟩)
    · obtain ⟨face, hface, rfl⟩ := Option.map_eq_some_iff.mp h.length
      obtain ⟨owners, howners⟩ := h.sound.exists_edgeOwners_take
      exact ⟨i, face, owners, hface, howners, if_pos h.short⟩
    · obtain ⟨face, k, hface, hlong, hedge, h, hfirst⟩ := hrepeated
      obtain ⟨owners, howners⟩ := h.exists_edgeOwners_take
      obtain ⟨hrecords, -⟩ := soundBefore_of_edgeOwners_take howners
      have hdistinct := h.distinct
      rw [edgesBefore_of_getElem? hface, ← edgesBefore_zero]
        at hdistinct hfirst
      refine ⟨i, face, owners, hface, howners,
        (if_neg (not_lt.mpr hlong)).trans ?_⟩
      exact hrecords.claims_eq_error_iff.mpr
        ⟨k, _, first, hdistinct, hedge, hfirst, rfl⟩

/-- Only when the map of the edges was made the check looks for an edge
without a partner. -/
theorem checkClosed_eq_error_iff {fault : ClosureFault} :
    surface.checkClosed = .error fault ↔
      surface.edgeOwners = .error fault ∨
      ∃ owners, surface.edgeOwners = .ok owners ∧
        surface.unpairedFault? owners = some fault := by
  unfold checkClosed
  cases surface.edgeOwners with
  | error cause => simp [bind, Except.bind]
  | ok owners =>
      simp only [bind, Except.bind, reduceCtorEq, false_or, Except.ok.injEq,
        exists_eq_left']
      cases surface.unpairedFault? owners with
      | none => simp
      | some unpaired => simp

theorem unpaired_of_unpairedFault? {owners : EdgeOwners}
    {fault : ClosureFault} (h : surface.unpairedFault? owners = some fault) :
    ∃ tail head face, .unpairedEdge tail head face = fault ∨
      .bothWays tail head face = fault := by
  obtain ⟨⟨face, i⟩, -, hface⟩ := List.exists_of_findSome?_eq_some h
  obtain ⟨edge, -, hedge⟩ := List.exists_of_findSome?_eq_some hface
  unfold EdgeOwners.edgeFault? at hedge
  split at hedge
  · exact ⟨_, _, _, .inl (Option.some.inj hedge)⟩
  · split at hedge
    · exact ⟨_, _, _, .inr (Option.some.inj hedge)⟩
    · cases hedge

theorem checkClosed_eq_tooFewCorners_iff {i count : ℕ} :
    surface.checkClosed = .error (.tooFewCorners i count) ↔
      surface.FirstShort i count := by
  rw [checkClosed_eq_error_iff, edgeOwners_eq_error_iff]
  constructor
  · rintro ((⟨_, _, h, heq⟩ | ⟨_, _, _, _, -, heq⟩) | ⟨_, -, h⟩)
    · obtain ⟨rfl, rfl⟩ := ClosureFault.tooFewCorners.inj heq
      exact h
    · cases heq
    · obtain ⟨_, _, _, heq | heq⟩ :=
        unpaired_of_unpairedFault? h <;> cases heq
  · exact fun h => .inl (.inl ⟨i, count, h, rfl⟩)

theorem checkClosed_eq_repeatedEdge_iff {tail head first second : ℕ} :
    surface.checkClosed = .error (.repeatedEdge tail head first second) ↔
      surface.FirstRepeated tail head first second := by
  rw [checkClosed_eq_error_iff, edgeOwners_eq_error_iff]
  constructor
  · rintro ((⟨_, _, -, heq⟩ | ⟨_, _, _, _, h, heq⟩) | ⟨_, -, h⟩)
    · cases heq
    · obtain ⟨rfl, rfl, rfl, rfl⟩ := ClosureFault.repeatedEdge.inj heq
      exact h
    · obtain ⟨_, _, _, heq | heq⟩ :=
        unpaired_of_unpairedFault? h <;> cases heq
  · exact fun h => .inl (.inr ⟨tail, head, first, second, h, rfl⟩)

/-! ## Both directions of every edge -/

section Closed

variable (hclosed : surface.checkClosed = .ok ())
include hclosed

theorem edge_ne_of_checkClosed {face : Face}
    (hface : face ∈ surface)
    {edge : Edge}
    (hedge : edge ∈ face.edges) : edge.1 ≠ edge.2 := by
  obtain ⟨-, hnodup, hmate⟩ := checkClosed_eq_ok_iff.mp hclosed
  obtain ⟨i, hi⟩ := List.mem_iff_getElem?.mp hface
  have hinc : surface.incidence i edge.1 edge.2 := ⟨face, hi, hedge⟩
  intro heq
  obtain ⟨j, hne, hj⟩ := hmate i _ _ hinc
  rw [← heq] at hj hinc
  exact hne (owner_unique_of_nodup hnodup hj hinc)

theorem filter_undirected_eq {edge : Edge}
    (hedge : edge ∈ surface.flatMap Face.edges) :
    {other ∈ (surface.flatMap Face.edges).toFinset |
      other.undirected = edge.undirected} = {edge, edge.swap} := by
  obtain ⟨-, -, hmate⟩ := checkClosed_eq_ok_iff.mp hclosed
  have hswap : edge.swap ∈ surface.flatMap Face.edges := by
    obtain ⟨i, hi⟩ := mem_flatMap_edges_iff.mp hedge
    obtain ⟨j, -, hj⟩ := hmate i _ _ hi
    exact mem_flatMap_edges_iff.mpr ⟨j, hj⟩
  ext other
  simp only [Finset.mem_filter, List.mem_toFinset, Finset.mem_insert,
    Finset.mem_singleton]
  constructor
  · rintro ⟨-, heq⟩
    rcases Edge.undirected_eq_iff.mp heq with ⟨h, h'⟩ | ⟨h, h'⟩
    exacts [.inl (Prod.ext h h'), .inr (Prod.ext h h')]
  · rintro (rfl | rfl)
    exacts [⟨hedge, rfl⟩, ⟨hswap, Edge.undirected_swap edge⟩]

theorem card_directions {edge : Edge}
    (hedge : edge ∈ surface.flatMap Face.edges) :
    {other ∈ (surface.flatMap Face.edges).toFinset |
      other.undirected = edge.undirected}.card = 2 := by
  obtain ⟨face, hface, hmem⟩ := List.mem_flatMap.mp hedge
  rw [filter_undirected_eq hclosed hedge, Finset.card_pair]
  exact fun heq =>
    edge_ne_of_checkClosed hclosed hface hmem (congrArg Prod.fst heq)

theorem two_mul_edgeCount_eq_sum :
    2 * surface.edgeCount = surface.sideCounts.sum := by
  obtain ⟨-, hnodup, -⟩ := checkClosed_eq_ok_iff.mp hclosed
  have hfibers :
      ∀ side ∈ (surface.flatMap Face.edges).toFinset.image Edge.undirected,
        {other ∈ (surface.flatMap Face.edges).toFinset |
          other.undirected = side}.card = 2 := by
    intro side hside
    obtain ⟨edge, hedge, rfl⟩ := Finset.mem_image.mp hside
    exact card_directions hclosed (List.mem_toFinset.mp hedge)
  calc 2 * surface.edgeCount =
      ((surface.flatMap Face.edges).toFinset.image Edge.undirected).card *
      2 := by
        rw [edgeCount_eq_card, mul_comm]
    _ = (surface.flatMap Face.edges).toFinset.card := by
        rw [Finset.card_eq_sum_card_image Edge.undirected
            (surface.flatMap Face.edges).toFinset,
          Finset.sum_congr rfl hfibers, Finset.sum_const, smul_eq_mul]
    _ = (surface.flatMap Face.edges).length :=
      List.toFinset_card_of_nodup hnodup
    _ = surface.sideCounts.sum := by simp [sideCounts, List.length_flatMap]

end Closed

/-- What the check says of any faces.  It passes when every face has three
corners, no directed edge occurs twice, and the reverse of every edge occurs
in another face; then no edge is a loop, every edge occurs once in each
direction, and the sides of the faces are twice the edges.  When it reports a
short face or a repeated edge, this is the first fault on the way through the
faces. -/
theorem checkClosed_verdicts (surface : Surface) :
    (surface.checkClosed = .ok () ↔ (∀ face ∈ surface, 3 ≤ face.length) ∧
        (surface.flatMap Face.edges).Nodup ∧
        ∀ i v w, surface.incidence i v w →
          ∃ j, j ≠ i ∧ surface.incidence j w v) ∧
      (surface.checkClosed = .ok () →
        (∀ face ∈ surface, ∀ edge ∈ face.edges, edge.1 ≠ edge.2) ∧
        (∀ edge ∈ surface.flatMap Face.edges,
          (surface.flatMap Face.edges).countP
            (fun other => other.undirected = edge.undirected) = 2) ∧
        2 * surface.edgeCount = surface.sideCounts.sum) ∧
      (∀ i count, surface.checkClosed.mapError ClosureFault.explanation =
          .error s!"face {i} has {count} vertices" ↔
          surface.FirstShort i count) ∧
      ∀ tail head first second,
        surface.checkClosed.mapError ClosureFault.explanation =
          .error s!"directed edge {tail} -> {head} appears in faces {first} and {second}" ↔
          surface.FirstRepeated tail head first second := by
  have htext : ∀ fault : ClosureFault, surface.checkClosed.mapError
        ClosureFault.explanation = .error fault.explanation ↔
      surface.checkClosed = .error fault := by
    intro fault
    rw [Except.mapError_eq_error_iff]
    constructor
    · rintro ⟨cause, hcause, heq⟩
      rwa [← ClosureFault.explanation_injective heq]
    · exact fun h => ⟨fault, h, rfl⟩
  refine ⟨checkClosed_eq_ok_iff,
    fun hclosed => ⟨?_, fun edge hedge => ?_, ?_⟩,
      fun i count => ?_, fun tail head first second => ?_⟩
  · exact fun face hface edge => edge_ne_of_checkClosed hclosed hface
  · obtain ⟨-, hnodup, -⟩ := checkClosed_eq_ok_iff.mp hclosed
    rw [List.countP_eq_length_filter,
      ← List.toFinset_card_of_nodup (hnodup.filter _), List.toFinset_filter,
      ← card_directions hclosed hedge]
    simp only [decide_eq_true_eq]
  · exact two_mul_edgeCount_eq_sum hclosed
  · exact (htext (.tooFewCorners i count)).trans
      checkClosed_eq_tooFewCorners_iff
  · exact (htext (.repeatedEdge tail head first second)).trans
      checkClosed_eq_repeatedEdge_iff

/-- Two faces on the two sides of two triangles that meet in the vertex 0. -/
def leaves : Surface := [[0, 1, 2, 0, 3, 4], [4, 3, 0, 2, 1, 0]]

/-- The faces of `leaves` go through the vertex 0 twice and are closed all
the same.  A repeated edge is reported before the short face after it. -/
theorem checkClosed_verdicts_leaves :
    leaves.checkClosed = .ok () ∧ 2 * leaves.edgeCount = 12 ∧
      (Surface.checkClosed [[0, 1, 2], [3, 0, 1], [4]]).mapError
        ClosureFault.explanation =
      .error "directed edge 0 -> 1 appears in faces 0 and 1" := by
  have hclosed : leaves.checkClosed = .ok () := by decide +kernel
  obtain ⟨-, -, hsum⟩ := (checkClosed_verdicts leaves).2.1 hclosed
  have hrepeated : FirstRepeated [[0, 1, 2], [3, 0, 1], [4]] 0 1 0 1 :=
    ⟨[3, 0, 1], 1, rfl, by decide, rfl, ⟨by decide, by decide⟩, by decide⟩
  exact ⟨hclosed, hsum,
    ((checkClosed_verdicts _).2.2.2 0 1 0 1).mpr hrepeated⟩

end Surface
end Polyhedra
