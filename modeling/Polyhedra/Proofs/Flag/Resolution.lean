import Mathlib
import Polyhedra.Flag.System
import Polyhedra.Proofs.Except
import Polyhedra.Proofs.Flag.Walk
import Polyhedra.Proofs.OrderedMap

/-!
# Resolution of a flag system

The index of a vertex is its rank, the number of registered keys below its
own.  Resolution succeeds exactly when the flags of every face lie between
registered vertices and are one cycle, and then it lists the vertices by
ascending keys and the walks around the faces by ascending face keys.
-/

namespace Polyhedra

/-! ## Strictly ascending lists of keys -/

section Ascending

variable {K : Type} [Ord K]

/-- In a strictly ascending list the entries below the one at place `k` are
the first `k`. -/
theorem countP_lt_of_ascending [Std.OrientedOrd K] {keys : List K}
    (h : keys.Pairwise fun a b => compare a b = .lt)
    {k : ℕ} {key : K}
    (hkey : keys[k]? = some key) :
    (keys.countP fun other => compare other key = .lt) = k := by
  induction keys generalizing k with
  | nil => simp at hkey
  | cons first rest ih =>
      obtain ⟨hfirst, hrest⟩ := List.pairwise_cons.mp h
      cases k with
      | zero =>
          obtain rfl : first = key := by simpa using hkey
          rw [List.countP_cons, List.countP_eq_zero.mpr]
          · simp [Std.ReflOrd.compare_self]
          · intro other hother
            simp [Std.OrientedOrd.eq_swap (a := other), hfirst other hother]
      | succ k =>
          have hmem : key ∈ rest :=
            List.mem_of_getElem? (by simpa using hkey)
          rw [List.countP_cons, ih hrest (by simpa using hkey)]
          simp [hfirst key hmem]

theorem nodup_of_ascending [Std.ReflOrd K] {keys : List K}
    (h : keys.Pairwise fun a b => compare a b = .lt) : keys.Nodup :=
  h.imp fun hlt heq => by simp [heq, Std.ReflOrd.compare_self] at hlt

/-- The number of entries below a key is the place of the key. -/
theorem countP_lt_eq_iff [Std.OrientedOrd K] {keys : List K}
    (h : keys.Pairwise fun a b => compare a b = .lt)
    {key : K}
    (hkey : key ∈ keys)
    {v : ℕ} :
    (keys.countP fun other => compare other key = .lt) = v ↔
      keys[v]? = some key := by
  obtain ⟨k, hk⟩ := List.mem_iff_getElem?.mp hkey
  obtain ⟨hlt, -⟩ := List.getElem?_eq_some_iff.mp hk
  rw [countP_lt_of_ascending h hk]
  constructor
  · intro heq
    exact heq ▸ hk
  · intro hv
    exact (List.getElem?_inj hlt (nodup_of_ascending h)).mp
      (hk.trans hv.symm)

/-- A strictly ascending list is determined by its entries. -/
theorem eq_of_ascending [Std.OrientedOrd K] {keys other : List K}
    (h : keys.Pairwise fun a b => compare a b = .lt)
    (h' : other.Pairwise fun a b => compare a b = .lt)
    (hmem : ∀ key, key ∈ keys ↔ key ∈ other) : keys = other := by
  have hperm : keys.Perm other :=
    (List.perm_ext_iff_of_nodup (nodup_of_ascending h)
      (nodup_of_ascending h')).mpr hmem
  refine hperm.eq_of_pairwise (fun a b _ _ hab hba => ?_) h h'
  rw [Std.OrientedOrd.eq_swap, hba] at hab
  simp at hab

/-- Maps with the same keys list them in the same order. -/
theorem keys_congr {V W : Type} [Std.TransOrd K] [Std.LawfulEqOrd K]
    {map : Std.ExtTreeMap K V} {other : Std.ExtTreeMap K W}
    (h : ∀ key, key ∈ other ↔ key ∈ map) : other.keys = map.keys := by
  refine eq_of_ascending Std.ExtTreeMap.ordered_keys
    Std.ExtTreeMap.ordered_keys fun key => ?_
  rw [Std.ExtTreeMap.mem_keys, Std.ExtTreeMap.mem_keys, h]

end Ascending

theorem FaceFlags.head?_keys_isLE {K : Type} [Ord K] [Std.TransOrd K]
    [Std.LawfulEqOrd K] {flags : FaceFlags K} {first : K}
    (hfirst : flags.keys.head? = some first)
    {tail : K}
    (htail : tail ∈ flags) :
    (compare first tail).isLE := by
  obtain ⟨rest, hkeys⟩ := List.head?_eq_some_iff.mp hfirst
  have hordered := Std.ExtTreeMap.ordered_keys (t := flags)
  rw [hkeys, List.pairwise_cons] at hordered
  have hmem : tail ∈ first :: rest :=
    hkeys ▸ Std.ExtTreeMap.mem_keys.mpr htail
  rcases List.mem_cons.mp hmem with rfl | hrest
  · simp [Std.ReflOrd.compare_self]
  · simp [hordered.1 tail hrest]

namespace FlagSystem

/-! ## Ranks -/

section Ranks

variable {F K : Type} [Ord F] [Ord K] [Std.TransOrd K]

/-- The number of registered keys below a key; for a registered key its
index. -/
def rank (system : FlagSystem F K) (key : K) : ℕ :=
  system.positions.keys.countP fun other => compare other key = .lt

theorem rank_le (system : FlagSystem F K) {a b : K}
    (h : (compare a b).isLE) :
    system.rank a ≤ system.rank b := by
  apply List.countP_mono_left
  intro other _ hother
  rw [decide_eq_true_eq] at hother ⊢
  exact Std.TransCmp.lt_of_lt_of_isLE hother h

variable [Std.LawfulEqOrd K]

/-- The indices depend on nothing but the registered keys. -/
theorem rank_congr {system other : FlagSystem F K}
    (h : ∀ key, key ∈ other.positions ↔ key ∈ system.positions) :
    other.rank = system.rank := by
  unfold rank
  rw [keys_congr h]

/-- The registered keys are numbered from zero on without a gap. -/
theorem rank_eq_iff (system : FlagSystem F K) {key : K}
    (hkey : key ∈ system.positions)
    {v : ℕ} :
    system.rank key = v ↔ system.positions.keys[v]? = some key :=
  countP_lt_eq_iff Std.ExtTreeMap.ordered_keys
    (Std.ExtTreeMap.mem_keys.mpr hkey)

theorem rank_lt (system : FlagSystem F K) {key : K}
    (hkey : key ∈ system.positions) :
    system.rank key < system.vertexCount := by
  have hget := (system.rank_eq_iff hkey).mp rfl
  simpa [vertexCount] using (List.getElem?_eq_some_iff.mp hget).1

theorem exists_rank_eq (system : FlagSystem F K) {v : ℕ}
    (hv : v < system.vertexCount) :
    ∃ key ∈ system.positions, system.rank key = v := by
  have hlt : v < system.positions.keys.length := by
    simpa [vertexCount] using hv
  have hkey : system.positions.keys[v] ∈ system.positions :=
    Std.ExtTreeMap.mem_keys.mp (List.getElem_mem hlt)
  exact ⟨_, hkey, (system.rank_eq_iff hkey).mpr (by simp)⟩

theorem rank_injOn (system : FlagSystem F K) :
    Set.InjOn system.rank {key | key ∈ system.positions} := by
  intro a ha b hb heq
  have hget := (system.rank_eq_iff ha).mp heq
  exact Option.some.inj (hget.symm.trans ((system.rank_eq_iff hb).mp rfl))

theorem getElem?_ranks (system : FlagSystem F K) {key : K}
    (hkey : key ∈ system.positions) :
    system.ranks[key]? = some (system.rank key) := by
  have hget := (system.rank_eq_iff hkey).mp rfl
  have hmem : (key, system.rank key) ∈ system.positions.keys.zipIdx :=
    List.mem_zipIdx_iff_getElem?.mpr hget
  have hdistinct : system.positions.keys.zipIdx.Pairwise
      fun a b => ¬ compare a.1 b.1 = .eq := by
    rw [← List.pairwise_map (f := Prod.fst)
      (R := fun a b => ¬ compare a b = .eq), List.zipIdx_map_fst]
    exact Std.ExtTreeMap.distinct_keys
  exact Std.ExtTreeMap.getElem?_ofList_of_mem Std.ReflOrd.compare_self
    hdistinct hmem

theorem getD_ranks (system : FlagSystem F K) {key : K}
    (hkey : key ∈ system.positions) :
    system.ranks.getD key 0 = system.rank key := by
  rw [Std.ExtTreeMap.getD_eq_getD_getElem?, system.getElem?_ranks hkey]
  rfl

theorem ofKeys_ranks (system : FlagSystem F K) {keys : List K}
    (hkeys : ∀ key ∈ keys, key ∈ system.positions) :
    Face.ofKeys system.ranks keys = keys.map system.rank :=
  List.map_congr_left fun key hkey => system.getD_ranks (hkeys key hkey)

end Ranks

/-! ## Sound faces -/

section Resolution

variable {F K : Type} [Ord F] [Ord K] [Std.TransOrd F] [Std.TransOrd K]

/-- A face that lists the index of every tail of the face `key`: it starts at
the smallest tail and goes from every tail to the head that was declared for
it. -/
def ListsFace (system : FlagSystem F K) (key : F) (face : Face) : Prop :=
  ∃ flags tails, system.faces[key]? = some flags ∧ flags.IsCycle tails ∧
    (∀ first ∈ tails.head?, ∀ tail ∈ flags, (compare first tail).isLE) ∧
    face = tails.map system.rank ∧ face.Nodup

/-- The vertices of a solid are the registered positions by ascending keys,
and its faces list the declared faces by ascending face keys. -/
structure Lists (system : FlagSystem F K) (solid : Solid) : Prop where
  vertices : ∃ keys : List K, (keys.Pairwise fun a b => compare a b = .lt) ∧
    (∀ key, key ∈ keys ↔ key ∈ system.positions) ∧
    solid.vertices.map some = keys.map system.position?
  faces : ∃ keys : List F, (keys.Pairwise fun a b => compare a b = .lt) ∧
    (∀ key, key ∈ keys ↔ key ∈ system.faces) ∧
    List.Forall₂ system.ListsFace keys solid.faces

/-- The flags of a face are sound: they lie between registered vertices and
are one cycle. -/
def Sound (system : FlagSystem F K) (flags : FaceFlags K) : Prop :=
  (∀ tail head, flags[tail]? = some head →
      tail ∈ system.positions ∧ head ∈ system.positions) ∧
    ∃ tails, flags.IsCycle tails

variable [Std.LawfulEqOrd K] [DecidableEq K]

omit [Std.TransOrd F] in
theorem walk_eq_ok_iff {system : FlagSystem F K} {face : F}
    {flags : FaceFlags K} {tails : List K} :
    system.walk face flags = .ok tails ↔
      (∀ tail head, flags[tail]? = some head →
        tail ∈ system.positions ∧ head ∈ system.positions) ∧
      flags.IsCycle tails ∧ tails.head? = flags.keys.head? := by
  rw [walk, Except.mapError_eq_ok_iff, FaceFlags.walk_eq_ok_iff]
  simp only [Std.ExtTreeMap.contains_iff_mem]

omit [Std.TransOrd F] in
theorem exists_walk_eq_ok_iff {system : FlagSystem F K} {face : F}
    {flags : FaceFlags K} :
    (∃ tails, system.walk face flags = .ok tails) ↔ system.Sound flags := by
  simp only [walk_eq_ok_iff, Sound, exists_and_left]
  refine and_congr_right fun _ => ?_
  rw [← FaceFlags.exists_cycle_eq_ok_iff]
  simp only [FaceFlags.cycle_eq_ok_iff]

omit [Std.LawfulEqOrd K] in
theorem resolve_eq_ok_iff {system : FlagSystem F K} {solid : Solid} :
    system.resolve = .ok solid ↔
      ∃ cycles,
        List.Forall₂
          (fun entry tails => system.walk entry.1 entry.2 = .ok tails)
          system.faces.toList cycles ∧
        solid = ⟨system.positions.values,
          cycles.map (Face.ofKeys system.ranks)⟩ := by
  rw [resolve, Except.bind_eq_ok_iff]
  simp only [cycles, Except.mapM_eq_ok_iff]
  exact exists_congr fun _ => and_congr_right fun _ =>
    ⟨fun h => (Except.ok.inj h).symm, fun h => h ▸ rfl⟩

/-- Resolution fails only on a face whose flags are not sound. -/
theorem exists_resolve_eq_ok_iff [Std.LawfulEqOrd F]
    {system : FlagSystem F K} :
    (∃ solid, system.resolve = .ok solid) ↔
      ∀ (face : F) (flags : FaceFlags K), system.faces[face]? = some flags →
        system.Sound flags := by
  have hcycles : (∃ solid, system.resolve = .ok solid) ↔
      ∃ cycles, system.cycles = .ok cycles := by
    simp only [resolve_eq_ok_iff, cycles, Except.mapM_eq_ok_iff]
    exact ⟨fun ⟨_, cycles, h, _⟩ => ⟨cycles, h⟩,
      fun ⟨cycles, h⟩ => ⟨_, cycles, h, rfl⟩⟩
  rw [hcycles, cycles, Except.exists_mapM_eq_ok_iff]
  simp only [Prod.forall, Std.ExtTreeMap.mem_toList_iff_getElem?_eq_some,
    exists_walk_eq_ok_iff]

theorem listsFace_of_walk {system : FlagSystem F K} {face : F}
    {flags : FaceFlags K} {tails : List K}
    (hflags : system.faces[face]? = some flags)
    (hwalk : system.walk face flags = .ok tails) :
    system.ListsFace face (Face.ofKeys system.ranks tails) := by
  obtain ⟨hregistered, hcycle, hhead⟩ := walk_eq_ok_iff.mp hwalk
  have htails : ∀ tail ∈ tails, tail ∈ system.positions := by
    intro tail htail
    obtain ⟨head, hstep⟩ := Face.exists_step_from htail
    exact (hregistered tail head (hcycle.head_of_step tail head hstep)).1
  rw [ofKeys_ranks system htails]
  refine ⟨flags, tails, hflags, hcycle, ?_, rfl, ?_⟩
  · intro first hfirst tail htail
    exact FaceFlags.head?_keys_isLE (hhead ▸ hfirst) htail
  · exact hcycle.nodup.map_on fun a ha b hb heq =>
      system.rank_injOn (htails a ha) (htails b hb) heq

theorem lists_of_resolve [Std.LawfulEqOrd F] {system : FlagSystem F K}
    {solid : Solid} (h : system.resolve = .ok solid) :
    system.Lists solid := by
  obtain ⟨cycles, hcycles, rfl⟩ := resolve_eq_ok_iff.mp h
  constructor
  · refine ⟨system.positions.keys, Std.ExtTreeMap.ordered_keys,
      fun key => Std.ExtTreeMap.mem_keys, ?_⟩
    rw [← Std.ExtTreeMap.map_fst_toList_eq_keys, values_eq_map_snd_toList,
      List.map_map, List.map_map]
    refine List.map_congr_left fun entry hentry => ?_
    exact (Std.ExtTreeMap.mem_toList_iff_getElem?_eq_some.mp hentry).symm
  · refine ⟨system.faces.keys, Std.ExtTreeMap.ordered_keys,
      fun key => Std.ExtTreeMap.mem_keys, ?_⟩
    rw [← Std.ExtTreeMap.map_fst_toList_eq_keys, List.forall₂_map_left_iff,
      List.forall₂_map_right_iff]
    refine ((List.forall₂_and_left _ _).mpr
      ⟨fun entry hentry => hentry, hcycles⟩).imp ?_
    rintro entry tails ⟨hentry, hwalk⟩
    exact listsFace_of_walk
      (Std.ExtTreeMap.mem_toList_iff_getElem?_eq_some.mp hentry) hwalk

/-- A flag system resolves exactly when the flags of every face lie between
registered vertices and form one cycle through all tails; the solid then
lists its vertices and faces in the order of their keys, every face from its
smallest tail on. -/
theorem resolve_iff_cycles [Std.LawfulEqOrd F] (system : FlagSystem F K) :
    ((∃ solid, system.resolve = .ok solid) ↔
      ∀ (face : F) (flags : FaceFlags K), system.faces[face]? = some flags →
        (∀ tail head, flags[tail]? = some head →
          tail ∈ system.positions ∧ head ∈ system.positions) ∧
          ∃ tails, flags.IsCycle tails) ∧
    ∀ solid, system.resolve = .ok solid → system.Lists solid :=
  ⟨exists_resolve_eq_ok_iff, fun _ h => lists_of_resolve h⟩

/-- Three vertices declared out of order, and the triangle `9 → 5 → 2`, which
is listed from its smallest key `2` on. -/
theorem resolve_triangle_lists :
    ∃ solid : Solid, (FlagSystem.ofDeclarations
          [.vertex 5 Point.origin, .flag ⟨0, 9, 5⟩, .vertex 9 Point.origin,
            .flag ⟨0, 2, 9⟩, .vertex 2 Point.origin, .flag ⟨0, 5, 2⟩] :
        FlagSystem ℕ ℕ).resolve = .ok solid ∧ solid.faces = [[0, 2, 1]] ∧
      (FlagSystem.ofDeclarations
        [.vertex 5 Point.origin, .flag ⟨0, 9, 5⟩, .vertex 9 Point.origin,
          .flag ⟨0, 2, 9⟩, .vertex 2 Point.origin, .flag ⟨0, 5, 2⟩] :
        FlagSystem ℕ ℕ).Lists solid :=
  ⟨{ vertices := [Point.origin, Point.origin, Point.origin],
     faces := [[0, 2, 1]] },
    rfl, rfl, (resolve_iff_cycles _).2 _ rfl⟩

end Resolution

end FlagSystem
end Polyhedra
