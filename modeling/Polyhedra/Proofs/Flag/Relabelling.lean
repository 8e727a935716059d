import Mathlib
import Polyhedra.Flag.Blueprint
import Polyhedra.Proofs.Flag.Construction
import Polyhedra.Proofs.OrderedMap

/-!
# Flag systems under other keys

Resolution looks at keys only to compare them.  Under other keys the vertices
are numbered in another order, the faces come in another order, and a walk
may start at another corner; but the same faces are refused, and the ones
that are accepted are the same cycles.  When the new keys ascend with the old
ones, nothing changes at all.
-/

namespace Polyhedra

/-! ## Places in relabelled lists -/

/-- Where the entry at the place `i` of a list is found in another list under
another name. -/
def placeUnder {α β : Type} [DecidableEq β] (rename : α → β) (list : List α)
    (other : List β) (i : ℕ) : ℕ :=
  (list[i]?.map fun a => other.idxOf (rename a)).getD 0

section Places

variable {α β : Type} [DecidableEq β] {rename : α → β} {list : List α}
  {other : List β}
  (hperm : other.Perm (list.map rename))
include hperm

theorem getElem?_placeUnder {i : ℕ} {a : α} (ha : list[i]? = some a) :
    other[placeUnder rename list other i]? = some (rename a) := by
  have hmem : rename a ∈ other :=
    hperm.mem_iff.mpr (List.mem_map_of_mem (List.mem_of_getElem? ha))
  rw [placeUnder, ha, Option.map_some, Option.getD_some]
  exact List.getElem?_idxOf hmem

theorem placeUnder_bijOn (hnodup : other.Nodup) :
    Set.BijOn (placeUnder rename list other) {i | i < list.length}
      {j | j < other.length} := by
  have hget : ∀ {i}, i < list.length → ∃ a, list[i]? = some a := fun hi =>
    ⟨_, List.getElem?_eq_getElem hi⟩
  have hnodup' : (list.map rename).Nodup := hperm.nodup_iff.mp hnodup
  refine ⟨fun i hi => ?_, fun i hi j hj heq => ?_, fun j hj => ?_⟩
  · obtain ⟨a, ha⟩ := hget hi
    exact (List.getElem?_eq_some_iff.mp (getElem?_placeUnder hperm ha)).1
  · obtain ⟨a, ha⟩ := hget hi
    obtain ⟨b, hb⟩ := hget hj
    have hsame : rename a = rename b := by
      have ha' := getElem?_placeUnder hperm ha
      rw [heq, getElem?_placeUnder hperm hb] at ha'
      exact (Option.some.inj ha').symm
    refine (List.getElem?_inj (by simpa using hi) hnodup').mp ?_
    rw [List.getElem?_map, List.getElem?_map, ha, hb, Option.map_some,
      Option.map_some, hsame]
  · have hlt : j < other.length := hj
    have hmem : other[j] ∈ list.map rename :=
      hperm.mem_iff.mp (List.getElem_mem hlt)
    obtain ⟨a, ha, heq⟩ := List.mem_map.mp hmem
    obtain ⟨i, hi⟩ := List.mem_iff_getElem?.mp ha
    refine ⟨i, (List.getElem?_eq_some_iff.mp hi).1, ?_⟩
    have hplace := getElem?_placeUnder hperm hi
    refine (List.getElem?_inj (List.getElem?_eq_some_iff.mp hplace).1
      hnodup).mp ?_
    rw [hplace, heq]
    simp

omit hperm in
/-- In the renamed list itself every entry keeps its place. -/
theorem placeUnder_map
    (hnodup : (list.map rename).Nodup)
    {i : ℕ}
    (hi : i < list.length) :
    placeUnder rename list (list.map rename) i = i := by
  have hget : list[i]? = some list[i] := List.getElem?_eq_getElem hi
  have hplace :
      (list.map rename)[placeUnder rename list (list.map rename) i]? =
        some (rename list[i]) :=
    getElem?_placeUnder (.refl _) hget
  refine (List.getElem?_inj (List.getElem?_eq_some_iff.mp hplace).1
    hnodup).mp ?_
  rw [hplace, List.getElem?_map, hget]
  rfl

end Places

/-- An ascending renaming of ascending keys leaves them in their order. -/
theorem eq_map_of_ascending {α β : Type} [Ord α] [Ord β] [Std.OrientedOrd β]
    {rename : α → β} {list : List α} {other : List β}
    (hperm : other.Perm (list.map rename))
    (hlist : list.Pairwise fun a b => compare a b = .lt)
    (hother : other.Pairwise fun a b => compare a b = .lt)
    (hascending : ∀ a ∈ list,
      ∀ b ∈ list, compare a b = .lt → compare (rename a) (rename b) = .lt) :
    other = list.map rename := by
  refine eq_of_ascending hother ?_ fun key => hperm.mem_iff
  exact List.pairwise_map.mpr
    (hlist.imp_of_mem fun ha hb => hascending _ ha _ hb)

/-- Of the ways to list a cycle of numbers, one starts at the smallest. -/
theorem Face.eq_of_isRotated {face turned : Face}
    (hrotated : turned ~r face)
    (hnodup : face.Nodup)
    (hface : ∀ first ∈ face.head?, ∀ v ∈ face, first ≤ v)
    (hturned : ∀ first ∈ turned.head?, ∀ v ∈ turned, first ≤ v) :
    turned = face := by
  refine Face.eq_of_steps hnodup hrotated.perm.length_eq ?_
    fun a b => (Face.mem_steps_of_isRotated hrotated).mp
  cases face with
  | nil => rw [List.isRotated_nil_iff.mp hrotated]
  | cons first rest =>
      cases turned with
      | nil => exact absurd (List.isRotated_nil_iff'.mp hrotated) (by simp)
      | cons first' rest' =>
          have hle := hface first rfl first' (hrotated.mem_iff.mp (by simp))
          have hle' :=
            hturned first' rfl first (hrotated.mem_iff.mpr (by simp))
          exact congrArg some (le_antisymm hle' hle)

/-! ## One face -/

namespace FaceFlags

variable {K L : Type} [Ord K] [Ord L] [Std.TransOrd K] [Std.TransOrd L]

/-- The same flags between other keys. -/
def relabel (onKey : K → L) (flags : FaceFlags K) : FaceFlags L :=
  relabelMap compare onKey onKey flags

/-- The keys at the ends of the flags. -/
def ends (flags : FaceFlags K) : Set K :=
  {key | ∃ tail head, flags[tail]? = some head ∧ (key = tail ∨ key = head)}

theorem mem_ends_of_mem {flags : FaceFlags K} {key : K} (h : key ∈ flags) :
    key ∈ flags.ends := by
  obtain ⟨head, hhead⟩ :=
    Option.isSome_iff_exists.mp (Std.ExtTreeMap.mem_iff_isSome_getElem?.mp h)
  exact ⟨key, head, hhead, .inl rfl⟩

variable [Std.LawfulEqOrd K] [Std.LawfulEqOrd L] [DecidableEq L]
  {onKey : K → L} {flags : FaceFlags K}
  (hkey : Set.InjOn onKey flags.ends)
include hkey

omit [Ord L] [Std.TransOrd L] [Std.LawfulEqOrd K] [Std.LawfulEqOrd L]
  [DecidableEq L] in
theorem injOn_of_injOn_ends : Set.InjOn onKey {key | key ∈ flags} :=
  hkey.mono fun _ => mem_ends_of_mem

theorem getElem?_relabel {tail head : L} :
    (flags.relabel onKey)[tail]? = some head ↔
      ∃ a b, flags[a]? = some b ∧ onKey a = tail ∧ onKey b = head :=
  getElem?_relabelMap (injOn_of_injOn_ends hkey)

theorem mem_relabel {key : L} :
    key ∈ flags.relabel onKey ↔ ∃ a ∈ flags, onKey a = key :=
  mem_relabelMap (injOn_of_injOn_ends hkey)

theorem IsCycle.relabel {keys : List K} (h : flags.IsCycle keys) :
    (flags.relabel onKey).IsCycle (keys.map onKey) where
  ne_nil := by simpa using h.ne_nil
  nodup := h.nodup.map_on fun a ha b hb =>
    hkey (mem_ends_of_mem ((h.mem_iff a).mp ha))
      (mem_ends_of_mem ((h.mem_iff b).mp hb))
  mem_iff key := by
    rw [mem_relabel hkey, List.mem_map]
    exact exists_congr fun a => and_congr_left fun _ => h.mem_iff a
  head_of_step tail head hstep := by
    rw [Face.steps_map, List.mem_map] at hstep
    obtain ⟨⟨a, b⟩, hab, heq⟩ := hstep
    obtain ⟨rfl, rfl⟩ := Prod.mk.inj heq
    exact (getElem?_relabel hkey).mpr
      ⟨a, b, h.head_of_step a b hab, rfl, rfl⟩

/-- A cycle of the relabelled flags is a cycle of the flags under other
keys. -/
theorem exists_isCycle_of_relabel {keys : List L}
    (h : (flags.relabel onKey).IsCycle keys) :
    ∃ tails, flags.IsCycle tails ∧ tails.map onKey = keys := by
  have himage : keys ∈
      Set.range (List.map fun a : {key // key ∈ flags} => onKey a.1) := by
    rw [Set.range_list_map]
    intro key hmem
    obtain ⟨a, ha, rfl⟩ := (mem_relabel hkey).mp ((h.mem_iff key).mp hmem)
    exact ⟨⟨a, ha⟩, rfl⟩
  obtain ⟨sources, rfl⟩ := himage
  have hmap : (sources.map Subtype.val).map onKey =
      sources.map fun a => onKey a.1 := by
    simp
  have hmem : ∀ a ∈ sources.map Subtype.val, a ∈ flags := by
    intro a ha
    obtain ⟨source, -, rfl⟩ := List.mem_map.mp ha
    exact source.2
  rw [← hmap] at h ⊢
  generalize sources.map Subtype.val = tails at h hmem
  refine ⟨tails, ⟨by simpa using h.ne_nil, h.nodup.of_map, ?_, ?_⟩, rfl⟩
  · intro a
    refine ⟨hmem a, fun ha => ?_⟩
    obtain ⟨b, hb, heq⟩ :=
      List.mem_map.mp
        ((h.mem_iff (onKey a)).mpr ((mem_relabel hkey).mpr ⟨a, ha, rfl⟩))
    exact hkey (mem_ends_of_mem (hmem b hb)) (mem_ends_of_mem ha) heq ▸ hb
  · intro tail head hstep
    have hends := Face.mem_of_step hstep
    have himage :
        (onKey tail, onKey head) ∈ Face.steps (tails.map onKey) := by
      rw [Face.steps_map]
      exact List.mem_map_of_mem hstep
    obtain ⟨a, b, hab, hatail, hbhead⟩ :=
      (getElem?_relabel hkey).mp (h.head_of_step _ _ himage)
    obtain rfl :=
      hkey ⟨a, b, hab, .inl rfl⟩ (mem_ends_of_mem (hmem tail hends.1)) hatail
    obtain rfl :=
      hkey ⟨a, b, hab, .inr rfl⟩ (mem_ends_of_mem (hmem head hends.2)) hbhead
    exact hab

end FaceFlags

/-! ## Whole systems -/

/-- The same step of a construction under other keys. -/
def Declaration.map {F K G L : Type} (onFace : F → G) (onKey : K → L) :
    Declaration F K → Declaration G L
  | .vertex key position => .vertex (onKey key) position
  | .flag declared => .flag (declared.map onFace onKey)

namespace FlagSystem

variable {F K G L : Type} [Ord F] [Ord K] [Ord G] [Ord L] [Std.TransOrd F]
  [Std.TransOrd K] [Std.TransOrd G] [Std.TransOrd L]

/-- The same vertices and flags under other keys. -/
def relabel (onFace : F → G) (onKey : K → L) (system : FlagSystem F K) :
    FlagSystem G L where
  positions := relabelMap compare onKey id system.positions
  faces := relabelMap compare onFace (FaceFlags.relabel onKey) system.faces

/-- The vertex keys that occur in a system: the registered ones and the ends
of flags. -/
def keys (system : FlagSystem F K) : Set K :=
  {key | key ∈ system.positions ∨ ∃ (face : F) (flags : FaceFlags K),
    system.faces[face]? = some flags ∧ key ∈ flags.ends}

theorem ends_subset_keys {system : FlagSystem F K} {face : F}
    {flags : FaceFlags K} (hflags : system.faces[face]? = some flags) :
    flags.ends ⊆ system.keys :=
  fun _ h => .inr ⟨face, flags, hflags, h⟩

/-- Where the vertex `v` is found under other keys. -/
def vertexUnder [DecidableEq L] (onFace : F → G) (onKey : K → L)
    (system : FlagSystem F K) : ℕ → ℕ :=
  placeUnder onKey system.positions.keys
    (system.relabel onFace onKey).positions.keys

/-- Where the face `i` is found under other keys. -/
def faceUnder [DecidableEq G] (onFace : F → G) (onKey : K → L)
    (system : FlagSystem F K) : ℕ → ℕ :=
  placeUnder onFace system.faces.keys
    (system.relabel onFace onKey).faces.keys

variable {system : FlagSystem F K} {onFace : F → G} {onKey : K → L}

section Vertices

variable [Std.LawfulEqOrd K] [Std.LawfulEqOrd L] [DecidableEq L]
  (hkey : Set.InjOn onKey system.keys)
include hkey

omit [Ord L] [Std.TransOrd L] [Std.LawfulEqOrd K] [Std.LawfulEqOrd L]
  [DecidableEq L] in
theorem injOn_positions : Set.InjOn onKey {key | key ∈ system.positions} :=
  hkey.mono fun _ => .inl

theorem mem_positions_relabel {key : L} :
    key ∈ (system.relabel onFace onKey).positions ↔
      ∃ a ∈ system.positions, onKey a = key :=
  mem_relabelMap (injOn_positions hkey)

theorem onKey_mem_positions_relabel {key : K} (h : key ∈ system.keys) :
    onKey key ∈ (system.relabel onFace onKey).positions ↔
      key ∈ system.positions := by
  rw [mem_positions_relabel hkey]
  constructor
  · rintro ⟨a, ha, heq⟩
    exact hkey (.inl ha) h heq ▸ ha
  · exact fun h => ⟨key, h, rfl⟩

theorem position?_relabel {key : K} (h : key ∈ system.positions) :
    (system.relabel onFace onKey).position? (onKey key) =
      system.position? key :=
  (getElem?_relabelMap_key (injOn_positions hkey) h).trans
    (Option.map_id_apply)

theorem sound_relabel_iff {face : F} {flags : FaceFlags K}
    (hflags : system.faces[face]? = some flags) :
    (system.relabel onFace onKey).Sound (flags.relabel onKey) ↔
      system.Sound flags := by
  have hends : Set.InjOn onKey flags.ends :=
    hkey.mono (ends_subset_keys hflags)
  have hregistered : ∀ {tail head : K}, flags[tail]? = some head →
      ((onKey tail ∈ (system.relabel onFace onKey).positions ∧
        onKey head ∈ (system.relabel onFace onKey).positions) ↔
        tail ∈ system.positions ∧ head ∈ system.positions) := by
    intro tail head hflag
    rw [onKey_mem_positions_relabel hkey
        (ends_subset_keys hflags ⟨tail, head, hflag, .inl rfl⟩),
      onKey_mem_positions_relabel hkey
        (ends_subset_keys hflags ⟨tail, head, hflag, .inr rfl⟩)]
  refine and_congr ?_ ?_
  · constructor
    · intro h tail head hflag
      exact (hregistered hflag).mp (h _ _ ((FaceFlags.getElem?_relabel
        hends).mpr ⟨tail, head, hflag, rfl, rfl⟩))
    · intro h tail head hflag
      obtain ⟨a, b, hab, rfl, rfl⟩ :=
        (FaceFlags.getElem?_relabel hends).mp hflag
      exact (hregistered hab).mpr (h a b hab)
  · constructor
    · rintro ⟨keys, hkeys⟩
      obtain ⟨tails, htails, -⟩ :=
        FaceFlags.exists_isCycle_of_relabel hends hkeys
      exact ⟨tails, htails⟩
    · exact fun ⟨tails, htails⟩ => ⟨tails.map onKey, htails.relabel hends⟩

theorem perm_positions_relabel :
    ((system.relabel onFace onKey).positions.keys).Perm
      (system.positions.keys.map onKey) := by
  refine (List.perm_ext_iff_of_nodup Std.ExtTreeMap.nodup_keys ?_).mpr
    fun key => ?_
  · refine List.Nodup.map_on (fun a ha b hb => ?_) Std.ExtTreeMap.nodup_keys
    exact injOn_positions hkey (Std.ExtTreeMap.mem_keys.mp ha)
      (Std.ExtTreeMap.mem_keys.mp hb)
  · simp only [Std.ExtTreeMap.mem_keys, mem_positions_relabel hkey,
      List.mem_map]

theorem getElem?_vertexUnder {v : ℕ} {key : K}
    (h : system.positions.keys[v]? = some key) :
    (system.relabel onFace onKey).positions.keys[system.vertexUnder onFace
      onKey v]? = some (onKey key) :=
  getElem?_placeUnder (perm_positions_relabel hkey) h

theorem vertexUnder_rank {key : K} (h : key ∈ system.positions) :
    system.vertexUnder onFace onKey (system.rank key) =
      (system.relabel onFace onKey).rank (onKey key) := by
  have hplace :
      (system.relabel onFace onKey).positions.keys[system.vertexUnder onFace
        onKey (system.rank key)]? = some (onKey key) :=
    getElem?_vertexUnder hkey ((system.rank_eq_iff h).mp rfl)
  refine ((rank_eq_iff _ ?_).mpr hplace).symm
  exact (mem_positions_relabel hkey).mpr ⟨key, h, rfl⟩

theorem vertexUnder_of_ascending
    (hkeys : ∀ a ∈ system.keys, ∀ b ∈ system.keys, compare a b = .lt →
      compare (onKey a) (onKey b) = .lt)
    {v : ℕ}
    (hv : v < system.positions.keys.length) :
    system.vertexUnder onFace onKey v = v := by
  have heq : (system.relabel onFace onKey).positions.keys =
      system.positions.keys.map onKey :=
    eq_map_of_ascending (perm_positions_relabel hkey)
      Std.ExtTreeMap.ordered_keys Std.ExtTreeMap.ordered_keys
      fun a ha b hb => hkeys a (.inl (Std.ExtTreeMap.mem_keys.mp ha)) b
        (.inl (Std.ExtTreeMap.mem_keys.mp hb))
  rw [vertexUnder, heq]
  exact placeUnder_map (heq ▸ Std.ExtTreeMap.nodup_keys) hv

end Vertices

section Faces

variable [Std.LawfulEqOrd F] [Std.LawfulEqOrd G] [DecidableEq G]
  (hface : Set.InjOn onFace {face | face ∈ system.faces})
include hface

theorem getElem?_faces_relabel {g : G} {flags : FaceFlags L} :
    (system.relabel onFace onKey).faces[g]? = some flags ↔
      ∃ f fs, system.faces[f]? = some fs ∧ onFace f = g ∧
        fs.relabel onKey = flags :=
  getElem?_relabelMap hface

theorem mem_faces_relabel {g : G} :
    g ∈ (system.relabel onFace onKey).faces ↔
      ∃ f ∈ system.faces, onFace f = g :=
  mem_relabelMap hface

theorem perm_faces_relabel : ((system.relabel onFace onKey).faces.keys).Perm
    (system.faces.keys.map onFace) := by
  refine (List.perm_ext_iff_of_nodup Std.ExtTreeMap.nodup_keys ?_).mpr
    fun face => ?_
  · refine List.Nodup.map_on (fun a ha b hb => ?_) Std.ExtTreeMap.nodup_keys
    exact hface (Std.ExtTreeMap.mem_keys.mp ha)
      (Std.ExtTreeMap.mem_keys.mp hb)
  · simp only [Std.ExtTreeMap.mem_keys, mem_faces_relabel hface,
      List.mem_map]

theorem getElem?_faceUnder {i : ℕ} {f : F}
    (h : system.faces.keys[i]? = some f) :
    (system.relabel onFace onKey).faces.keys[system.faceUnder onFace onKey
      i]? = some (onFace f) :=
  getElem?_placeUnder (perm_faces_relabel hface) h

theorem faceUnder_of_ascending
    (hfaces : ∀ f ∈ system.faces, ∀ g ∈ system.faces, compare f g = .lt →
      compare (onFace f) (onFace g) = .lt)
    {i : ℕ}
    (hi : i < system.faces.keys.length) :
    system.faceUnder onFace onKey i = i := by
  have heq : (system.relabel onFace onKey).faces.keys =
      system.faces.keys.map onFace :=
    eq_map_of_ascending (perm_faces_relabel hface)
      Std.ExtTreeMap.ordered_keys Std.ExtTreeMap.ordered_keys
      fun a ha b hb => hfaces a (Std.ExtTreeMap.mem_keys.mp ha) b
        (Std.ExtTreeMap.mem_keys.mp hb)
  rw [faceUnder, heq]
  exact placeUnder_map (heq ▸ Std.ExtTreeMap.nodup_keys) hi

end Faces

section Solids

variable [Std.LawfulEqOrd F] [Std.LawfulEqOrd K] [Std.LawfulEqOrd G]
  [Std.LawfulEqOrd L] [DecidableEq G] [DecidableEq L]
  (hface : Set.InjOn onFace {face | face ∈ system.faces})
  (hkey : Set.InjOn onKey system.keys)
include hface hkey

theorem exists_resolve_relabel_iff [DecidableEq K] :
    (∃ solid, (system.relabel onFace onKey).resolve = .ok solid) ↔
      ∃ solid, system.resolve = .ok solid := by
  rw [exists_resolve_eq_ok_iff, exists_resolve_eq_ok_iff]
  simp only [getElem?_faces_relabel hface]
  constructor
  · intro h f flags hflags
    exact (sound_relabel_iff hkey hflags).mp
      (h _ _ ⟨f, flags, hflags, rfl, rfl⟩)
  · rintro h _ _ ⟨f, flags, hflags, rfl, rfl⟩
    exact (sound_relabel_iff hkey hflags).mpr (h f flags hflags)

/-- A listed face is listed again under other keys, as the same cycle of
vertices. -/
theorem ListsFace.isRotated_relabel {f : F} {face turned : Face}
    {onVertex : ℕ → ℕ}
    (hvertex : ∀ key ∈ system.positions, onVertex (system.rank key) =
      (system.relabel onFace onKey).rank (onKey key))
    (hlists : system.ListsFace f face)
    (hregistered :
      ∀ flags, system.faces[f]? = some flags → system.Sound flags)
    (hturned : (system.relabel onFace onKey).ListsFace (onFace f) turned) :
    turned ~r face.map onVertex := by
  obtain ⟨flags, tails, hflags, hcycle, -, rfl, -⟩ := hlists
  obtain ⟨flags', tails', hflags', hcycle', -, rfl, -⟩ := hturned
  have hends : Set.InjOn onKey flags.ends :=
    hkey.mono (ends_subset_keys hflags)
  obtain rfl : flags.relabel onKey = flags' := by
    have hsame : (system.relabel onFace onKey).faces[onFace f]? =
        some (flags.relabel onKey) :=
      (getElem?_faces_relabel hface).mpr ⟨f, flags, hflags, rfl, rfl⟩
    exact Option.some.inj (hsame.symm.trans hflags')
  have hrank : (tails.map system.rank).map onVertex =
      (tails.map onKey).map (system.relabel onFace onKey).rank := by
    rw [List.map_map, List.map_map]
    refine List.map_congr_left fun tail htail => hvertex tail ?_
    obtain ⟨head, hstep⟩ := Face.exists_step_from htail
    exact ((hregistered flags hflags).1 tail head
      (hcycle.head_of_step tail head hstep)).1
  rw [hrank]
  refine List.IsRotated.map ?_ _
  exact hcycle'.isRotated (hcycle.relabel hends)

end Solids

end FlagSystem

/-- One solid is another one with its vertices and faces numbered in another
order and its faces started at other corners. -/
structure Solid.Renumbers (solid other : Solid) (onVertex onFace : ℕ → ℕ) :
    Prop where
  vertices : Set.BijOn onVertex {v | v < solid.vertices.length}
    {v | v < other.vertices.length}
  faces : Set.BijOn onFace {i | i < solid.faces.length}
    {i | i < other.faces.length}
  position : ∀ v < solid.vertices.length,
    other.vertices[onVertex v]? = solid.vertices[v]?
  face : ∀ (i : ℕ) (face : Face), solid.faces[i]? = some face →
    ∃ turned, other.faces[onFace i]? = some turned ∧
      turned ~r face.map onVertex

namespace Solid.Renumbers

variable {solid other : Solid} {onVertex onFace : ℕ → ℕ}

theorem eq_of_bijOn {f : ℕ → ℕ} {m n : ℕ}
    (h : Set.BijOn f {i | i < m} {i | i < n}) : n = m := by
  have hsize : ∀ k : ℕ, {i | i < k}.ncard = k := Set.ncard_Iio_nat
  rw [← hsize n, ← h.image_eq, h.injOn.ncard_image, hsize]

theorem length_vertices (h : solid.Renumbers other onVertex onFace) :
    other.vertices.length = solid.vertices.length :=
  eq_of_bijOn h.vertices

theorem length_faces (h : solid.Renumbers other onVertex onFace) :
    other.faces.length = solid.faces.length :=
  eq_of_bijOn h.faces

/-- The numbering of its own with faces that start at the same corners gives
the same solid. -/
theorem eq_of_forall_eq
    (h : solid.Renumbers other onVertex onFace)
    (hvertex : ∀ v < solid.vertices.length, onVertex v = v)
    (hindex : ∀ i < solid.faces.length, onFace i = i)
    (hcorners : ∀ face ∈ solid.faces, ∀ v ∈ face, v < solid.vertices.length)
    (hstart : ∀ face ∈ solid.faces,
      ∀ turned ∈ other.faces, turned ~r face → turned = face) :
    other = solid := by
  have hvertices : other.vertices = solid.vertices := by
    refine List.ext_getElem? fun v => ?_
    rcases lt_or_ge v solid.vertices.length with hv | hv
    · rw [← h.position v hv, hvertex v hv]
    · have hlength := h.length_vertices
      rw [List.getElem?_eq_none hv, List.getElem?_eq_none (by omega)]
  have hfaces : other.faces = solid.faces := by
    refine List.ext_getElem? fun i => ?_
    rcases lt_or_ge i solid.faces.length with hi | hi
    · have hget : solid.faces[i]? = some solid.faces[i] :=
        List.getElem?_eq_getElem hi
      have hmem : solid.faces[i] ∈ solid.faces := List.getElem_mem hi
      obtain ⟨turned, hturned, hrotated⟩ := h.face i _ hget
      have hsame : solid.faces[i].map onVertex = solid.faces[i] :=
        (List.map_congr_left fun v hv =>
          hvertex v (hcorners _ hmem v hv)).trans (List.map_id _)
      rw [hsame] at hrotated
      rw [hindex i hi] at hturned
      rw [hturned, hget,
        hstart _ hmem turned (List.mem_of_getElem? hturned) hrotated]
    · have hlength := h.length_faces
      rw [List.getElem?_eq_none hi, List.getElem?_eq_none (by omega)]
  cases other
  cases solid
  exact congr (congrArg Solid.mk hvertices) hfaces

end Solid.Renumbers

namespace FlagSystem

/-! ## Declarations under other keys -/

section Declarations

variable {F K G L : Type} [Ord F] [Ord K] [Ord G] [Ord L] [Std.TransOrd F]
  [Std.TransOrd K] [Std.TransOrd G] [Std.TransOrd L] [Std.LawfulEqOrd F]
  [Std.LawfulEqOrd K] [Std.LawfulEqOrd G] [Std.LawfulEqOrd L] [DecidableEq G]
  [DecidableEq L] {onFace : F → G} {onKey : K → L}
  (hface : Function.Injective onFace)
  (hkey : Function.Injective onKey)
include hface hkey

theorem relabel_declare (system : FlagSystem F K)
    (declaration : Declaration F K) :
    (system.declare declaration).relabel onFace onKey =
      (system.relabel onFace onKey).declare
        (declaration.map onFace onKey) := by
  cases declaration with
  | vertex key position =>
      have hpositions :
          ((system.setVertex key position).relabel onFace onKey).positions =
            ((system.relabel onFace onKey).setVertex (onKey key)
              position).positions :=
        relabelMap_insert hkey.injOn
      exact congrArg (FlagSystem.mk · _) hpositions
  | flag flag =>
      have hflags :
          (system.relabel onFace onKey).faces.getD (onFace flag.face) ∅ =
            (system.faces.getD flag.face ∅).relabel onKey := by
        rw [Std.ExtTreeMap.getD_eq_getD_getElem?,
          Std.ExtTreeMap.getD_eq_getD_getElem?]
        cases hget : system.faces[flag.face]? with
        | some flags =>
            rw [(getElem?_faces_relabel hface.injOn).mpr
              ⟨flag.face, flags, hget, rfl, rfl⟩]
            rfl
        | none =>
            have hnone :
                (system.relabel onFace onKey).faces[onFace flag.face]? =
                  none := by
              refine Option.eq_none_iff_forall_ne_some.mpr
                fun flags hflags => ?_
              obtain ⟨f, fs, hfs, heq, -⟩ :=
                (getElem?_faces_relabel hface.injOn).mp hflags
              obtain rfl := hface heq
              simp [hget] at hfs
            rw [hnone]
            rfl
      have hfaces : ((system.setFlag flag).relabel onFace onKey).faces =
          ((system.relabel onFace onKey).setFlag
            (flag.map onFace onKey)).faces := by
        simp only [relabel, setFlag]
        rw [relabelMap_insert hface.injOn, FaceFlags.relabel,
          relabelMap_insert hkey.injOn]
        exact congrArg (fun flags =>
            Std.ExtTreeMap.insert _ _ (Std.ExtTreeMap.insert flags _ _))
          hflags.symm
      exact congrArg (FlagSystem.mk _ ·) hfaces

/-- Declaring under other keys is putting the declared system under other
keys. -/
theorem relabel_ofDeclarations (declarations : List (Declaration F K)) :
    (ofDeclarations declarations).relabel onFace onKey =
      ofDeclarations (declarations.map (.map onFace onKey)) := by
  have hrun : ∀ system : FlagSystem F K,
      (declarations.foldl declare system).relabel onFace onKey =
        (declarations.map (.map onFace onKey)).foldl declare
          (system.relabel onFace onKey) := by
    induction declarations with
    | nil => exact fun _ => rfl
    | cons declaration declarations ih =>
        intro system
        rw [List.foldl_cons, ih, relabel_declare hface hkey]
        rfl
  exact hrun ∅

end Declarations

/-! ## Solids under other keys -/

section Solids

variable {F K : Type} [Ord F] [Ord K] [Std.TransOrd F] [Std.TransOrd K]
  [Std.LawfulEqOrd F] [Std.LawfulEqOrd K] [DecidableEq K]
  {system : FlagSystem F K} {solid : Solid}

theorem mem_positions_of_isCycle {f : F} {flags : FaceFlags K}
    {tails : List K}
    (hresolve : system.resolve = .ok solid)
    (hflags : system.faces[f]? = some flags)
    (hcycle : flags.IsCycle tails) :
    ∀ tail ∈ tails, tail ∈ system.positions := by
  intro tail htail
  obtain ⟨head, hstep⟩ := Face.exists_step_from htail
  have hsound := exists_resolve_eq_ok_iff.mp ⟨solid, hresolve⟩ f flags hflags
  exact (hsound.1 tail head (hcycle.head_of_step tail head hstep)).1

theorem lt_of_mem_faces
    (hresolve : system.resolve = .ok solid)
    {face : Face}
    (hface : face ∈ solid.faces) :
    ∀ v ∈ face, v < solid.vertices.length := by
  have hlists := lists_of_resolve hresolve
  obtain ⟨f, -, flags, tails, hflags, hcycle, -, rfl, -⟩ :=
    hlists.exists_key hface
  intro v hv
  obtain ⟨tail, htail, rfl⟩ := List.mem_map.mp hv
  rw [hlists.length_vertices]
  exact system.rank_lt
    (mem_positions_of_isCycle hresolve hflags hcycle tail htail)

end Solids

section Relabel

variable {F K G L : Type} [Ord F] [Ord K] [Ord G] [Ord L] [Std.TransOrd F]
  [Std.TransOrd K] [Std.TransOrd G] [Std.TransOrd L] [Std.LawfulEqOrd F]
  [Std.LawfulEqOrd K] [Std.LawfulEqOrd G] [Std.LawfulEqOrd L] [DecidableEq K]
  [DecidableEq G] [DecidableEq L] {system : FlagSystem F K} {onFace : F → G}
  {onKey : K → L} {solid other : Solid}

theorem renumbers_relabel
    (hface : Set.InjOn onFace {face | face ∈ system.faces})
    (hkey : Set.InjOn onKey system.keys)
    (hsolid : system.resolve = .ok solid)
    (hother : (system.relabel onFace onKey).resolve = .ok other) :
    solid.Renumbers other (system.vertexUnder onFace onKey)
      (system.faceUnder onFace onKey) := by
  have hlists := lists_of_resolve hsolid
  have hlists' := lists_of_resolve hother
  refine ⟨?_, ?_, fun v hv => ?_, fun i face hi => ?_⟩
  · rw [hlists.length_vertices, hlists'.length_vertices, vertexCount,
      vertexCount, ← Std.ExtTreeMap.length_keys,
      ← Std.ExtTreeMap.length_keys]
    exact placeUnder_bijOn (perm_positions_relabel hkey)
      Std.ExtTreeMap.nodup_keys
  · rw [hlists.length_faces, hlists'.length_faces, faceCount, faceCount,
      ← Std.ExtTreeMap.length_keys, ← Std.ExtTreeMap.length_keys]
    exact placeUnder_bijOn (perm_faces_relabel hface)
      Std.ExtTreeMap.nodup_keys
  · rw [hlists.length_vertices] at hv
    obtain ⟨key, hregistered, hrank⟩ := system.exists_rank_eq hv
    have hget := (system.rank_eq_iff hregistered).mp hrank
    have hposition : (system.relabel onFace onKey).position? (onKey key) =
        system.position? key :=
      position?_relabel hkey hregistered
    rw [hlists.getElem?_vertices hget, ← hposition]
    exact hlists'.getElem?_vertices (getElem?_vertexUnder hkey hget)
  · have hlt : i < system.faces.keys.length := by
      have hlength := (List.getElem?_eq_some_iff.mp hi).1
      rwa [hlists.length_faces, faceCount, ← Std.ExtTreeMap.length_keys]
        at hlength
    have hget : system.faces.keys[i]? = some system.faces.keys[i] :=
      List.getElem?_eq_getElem hlt
    obtain ⟨_, hface', hlisted⟩ := hlists.exists_listsFace hget
    obtain rfl := Option.some.inj (hface'.symm.trans hi)
    have hget' : (system.relabel onFace onKey).faces.keys[system.faceUnder
        onFace onKey i]? = some (onFace system.faces.keys[i]) :=
      getElem?_faceUnder hface hget
    obtain ⟨turned, hturned, hlisted'⟩ := hlists'.exists_listsFace hget'
    have hsound := exists_resolve_eq_ok_iff.mp ⟨solid, hsolid⟩
    exact ⟨turned, hturned,
      hlisted.isRotated_relabel hface hkey (fun key hregistered =>
        vertexUnder_rank hkey hregistered) (hsound _) hlisted'⟩

theorem eq_of_ascending_relabel
    (hface : Set.InjOn onFace {face | face ∈ system.faces})
    (hkey : Set.InjOn onKey system.keys)
    (hsolid : system.resolve = .ok solid)
    (hother : (system.relabel onFace onKey).resolve = .ok other)
    (hfaces : ∀ f ∈ system.faces, ∀ g ∈ system.faces, compare f g = .lt →
      compare (onFace f) (onFace g) = .lt)
    (hkeys : ∀ a ∈ system.keys, ∀ b ∈ system.keys, compare a b = .lt →
      compare (onKey a) (onKey b) = .lt) : other = solid := by
  have hlists := lists_of_resolve hsolid
  have hlists' := lists_of_resolve hother
  apply (renumbers_relabel hface hkey hsolid hother).eq_of_forall_eq
  · intro v hv
    rw [hlists.length_vertices, vertexCount, ← Std.ExtTreeMap.length_keys]
      at hv
    exact vertexUnder_of_ascending hkey hkeys hv
  · intro i hi
    rw [hlists.length_faces, faceCount, ← Std.ExtTreeMap.length_keys] at hi
    exact faceUnder_of_ascending hface hfaces hi
  · exact fun face hmem => lt_of_mem_faces hsolid hmem
  · intro face hmem turned hturned hrotated
    exact Face.eq_of_isRotated hrotated (hlists.nodup_faces _ hmem).1
      (hlists.head_le _ hmem) (hlists'.head_le _ hturned)

/-- The two orders of keys are interchangeable: a system resolves under other
keys exactly when it does under its own, the two solids differ in the
numbering that the keys induce and in where the faces start, and keys that
ascend with the old ones change nothing. -/
theorem resolve_relabel
    (hface : Set.InjOn onFace {face | face ∈ system.faces})
    (hkey : Set.InjOn onKey system.keys) :
    ((∃ other, (system.relabel onFace onKey).resolve = .ok other) ↔
        ∃ solid, system.resolve = .ok solid) ∧
      ∀ solid other, system.resolve = .ok solid →
        (system.relabel onFace onKey).resolve = .ok other →
        (∃ onVertex onIndex, solid.Renumbers other onVertex onIndex ∧
          (∀ (v : ℕ) (key : K), system.positions.keys[v]? = some key →
            (system.relabel onFace onKey).positions.keys[onVertex v]? =
              some (onKey key)) ∧
          ∀ (i : ℕ) (face : F), system.faces.keys[i]? = some face →
            (system.relabel onFace onKey).faces.keys[onIndex i]? =
              some (onFace face)) ∧
        ((∀ f ∈ system.faces, ∀ g ∈ system.faces, compare f g = .lt →
          compare (onFace f) (onFace g) = .lt) →
          (∀ a ∈ system.keys, ∀ b ∈ system.keys, compare a b = .lt →
            compare (onKey a) (onKey b) = .lt) → other = solid) := by
  refine ⟨exists_resolve_relabel_iff hface hkey,
    fun solid other hsolid hother => ⟨?_, ?_⟩⟩
  · exact ⟨_, _, renumbers_relabel hface hkey hsolid hother, fun _ _ =>
      getElem?_vertexUnder hkey, fun _ _ => getElem?_faceUnder hface⟩
  · exact eq_of_ascending_relabel hface hkey hsolid hother

/-- The triangle `1 → 2 → 10`. -/
def sampleTriangle : FlagSystem ℕ ℕ := .ofDeclarations
  [.vertex 10 Point.origin, .vertex 1 Point.origin, .vertex 2 Point.origin,
    .flag ⟨0, 1, 2⟩, .flag ⟨0, 2, 10⟩, .flag ⟨0, 10, 1⟩]

/-- A triangle under text labels, among which `v10` comes before `v2`, and
under keys that are all seven higher. -/
theorem resolve_relabel_triangle :
    ∃ system : FlagSystem ℕ ℕ,
      ∃ solid other, system.resolve = .ok solid ∧ solid.faces = [[0, 1, 2]] ∧
        (system.relabel (fun i => (FaceRole.kept i).label)
          Label.vertex).resolve = .ok other ∧ other.faces = [[0, 2, 1]] ∧
        (∃ onVertex onIndex, solid.Renumbers other onVertex onIndex) ∧
        (system.relabel (· + 7) (· + 7)).resolve = .ok solid := by
  let points := [Point.origin, Point.origin, Point.origin]
  have hface : Function.Injective fun i => (FaceRole.kept i).label := by
    intro i j h
    simpa using FaceRole.label_injective h
  have hkey : Function.Injective Label.vertex := by
    intro v w h
    simpa using @VertexRole.label_injective (.corner v) (.corner w) h
  have hsolid : sampleTriangle.resolve = .ok ⟨points, [[0, 1, 2]]⟩ := rfl
  have hfaces : (sampleTriangle.relabel (fun i => (FaceRole.kept i).label)
      Label.vertex).resolve.toOption.map Solid.faces = some [[0, 2, 1]] := by
    rw [sampleTriangle, relabel_ofDeclarations hface hkey]
    decide +kernel
  obtain ⟨text, htext⟩ : ∃ other, (sampleTriangle.relabel
      (fun i => (FaceRole.kept i).label) Label.vertex).resolve = .ok other :=
    (resolve_relabel hface.injOn hkey.injOn).1.mpr ⟨_, hsolid⟩
  rw [htext] at hfaces
  have hshift : Function.Injective fun n : ℕ => n + 7 := add_left_injective 7
  have hascending :
      ∀ a b : ℕ, compare a b = .lt → compare (a + 7) (b + 7) = .lt := by
    intro a b hab
    rw [Nat.compare_eq_lt] at hab ⊢
    omega
  obtain ⟨shifted, hshifted⟩ : ∃ other,
      (sampleTriangle.relabel (· + 7) (· + 7)).resolve = .ok other :=
    (resolve_relabel hshift.injOn hshift.injOn).1.mpr ⟨_, hsolid⟩
  have heq :=
    ((resolve_relabel hshift.injOn hshift.injOn).2 _ shifted hsolid
      hshifted).2 (fun a _ b _ => hascending a b)
      fun a _ b _ => hascending a b
  obtain ⟨onVertex, onIndex, hrenumbers, -⟩ :=
    ((resolve_relabel hface.injOn hkey.injOn).2 _ _ hsolid htext).1
  exact ⟨sampleTriangle, _, text, hsolid, rfl, htext, Option.some.inj hfaces,
    ⟨onVertex, onIndex, hrenumbers⟩, heq ▸ hshifted⟩

end Relabel

end FlagSystem

/-! ## Blueprints under other keys -/

namespace Blueprint

variable {F K G L : Type} [Ord F] [Ord K] [Ord G] [Ord L]
  [Std.TransOrd F] [Std.TransOrd K] [Std.TransOrd G] [Std.TransOrd L]
  [Std.LawfulEqOrd F] [Std.LawfulEqOrd K] [Std.LawfulEqOrd G]
  [Std.LawfulEqOrd L] [DecidableEq G] [DecidableEq L]
  {onFace : F → G} {onKey : K → L}
  (hface : Function.Injective onFace) (hkey : Function.Injective onKey)
  (blueprint : Blueprint F K)
include hface hkey

/-- A blueprint under other keys has the system of the blueprint under these
keys. -/
theorem system_relabel : (blueprint.relabel onFace onKey).system =
    blueprint.system.relabel onFace onKey := by
  rw [system, system, FlagSystem.relabel_ofDeclarations hface hkey,
    declarations, declarations, List.map_append, List.map_map, List.map_map,
    relabel, List.map_map, List.map_map]
  rfl

variable [DecidableEq K]

/-- The keys that a blueprint is put under before it is built decide neither
whether it resolves nor what it resolves to: two choices of keys give the
same solid up to the numbering and the corners at which the faces start. -/
theorem relabel_resolves :
    ((∃ other, (blueprint.relabel onFace onKey).system.resolve = .ok other) ↔
      ∃ solid, blueprint.system.resolve = .ok solid) ∧
    ∀ solid other, blueprint.system.resolve = .ok solid →
      (blueprint.relabel onFace onKey).system.resolve = .ok other →
      ∃ onVertex onIndex, solid.Renumbers other onVertex onIndex := by
  rw [blueprint.system_relabel hface hkey]
  refine ⟨FlagSystem.exists_resolve_relabel_iff hface.injOn hkey.injOn, ?_⟩
  intro solid other hsolid hother
  exact ⟨_, _,
    FlagSystem.renumbers_relabel hface.injOn hkey.injOn hsolid hother⟩

end Blueprint
end Polyhedra
