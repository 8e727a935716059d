import Mathlib
import Std.Data.ExtTreeMap

/-!
# Ordered maps

Maps made of lists, and maps with other keys and values.
-/

namespace Polyhedra

section Entries

variable {α β : Type} {order : α → α → Ordering} [Std.TransCmp order]

theorem values_eq_map_snd_toList (map : Std.ExtTreeMap α β order) :
    map.values = map.toList.map Prod.snd := by
  obtain ⟨⟨tree⟩⟩ := map
  induction tree using Quotient.inductionOn with
  | h tree =>
      change tree.inner.values =
        (Std.DTreeMap.Internal.Impl.Const.toList tree.inner).map Prod.snd
      rw [Std.DTreeMap.Internal.Impl.values_eq_map_snd,
        Std.DTreeMap.Internal.Impl.Const.toList_eq_toListModel_map]
      simp

theorem mem_of_getElem?_eq_some {map : Std.ExtTreeMap α β order} {a : α}
    {b : β} (h : map[a]? = some b) : a ∈ map :=
  Std.ExtTreeMap.mem_iff_isSome_getElem?.mpr (by simp [h])

variable [Std.LawfulEqCmp order]

/-- The entries that stand before one have the smaller keys. -/
theorem mem_before_iff {map : Std.ExtTreeMap α β order}
    {before after : List (α × β)} {a c : α} {b d : β}
    (hsplit : map.toList = before ++ (a, b) :: after) :
    (c, d) ∈ before ↔ map[c]? = some d ∧ order c a = .lt := by
  have hordered : (before ++ (a, b) :: after).Pairwise fun x y =>
      order x.1 y.1 = .lt := by
    rw [← hsplit,
      ← List.pairwise_map (f := Prod.fst) (R := fun x y => order x y = .lt),
      Std.ExtTreeMap.map_fst_toList_eq_keys]
    exact Std.ExtTreeMap.ordered_keys
  obtain ⟨-, hafter, hbefore⟩ := List.pairwise_append.mp hordered
  rw [← Std.ExtTreeMap.mem_toList_iff_getElem?_eq_some, hsplit]
  constructor
  · intro hmem
    exact ⟨List.mem_append_left _ hmem, hbefore _ hmem _ List.mem_cons_self⟩
  · rintro ⟨hmem, hlt⟩
    rcases List.mem_append.mp hmem with hmem | hmem
    · exact hmem
    · rcases List.mem_cons.mp hmem with heq | hmem
      · have hself : order a a = .eq := Std.ReflCmp.compare_self
        rw [(Prod.mk.inj heq).1, hself] at hlt
        simp at hlt
      · have hgt := (List.pairwise_cons.mp hafter).1 _ hmem
        have hswap : order c a = (order a c).swap := Std.OrientedCmp.eq_swap
        rw [hswap, hgt] at hlt
        simp at hlt
/-- A map has as many entries as keys. -/
theorem size_eq_ncard [DecidableEq α] (map : Std.ExtTreeMap α β order) :
    map.size = {a | a ∈ map}.ncard := by
  have hkeys : {a | a ∈ map} = (map.keys.toFinset : Set α) := by
    ext a
    simp
  rw [hkeys, Set.ncard_coe_finset,
    List.toFinset_card_of_nodup Std.ExtTreeMap.nodup_keys,
    Std.ExtTreeMap.length_keys]

/-- Every entry of a map comes from the list that it was made of. -/
theorem mem_of_getElem?_insertMany {entries : List (α × β)}
    {map : Std.ExtTreeMap α β order} {a : α} {b : β}
    (h : (map.insertMany entries)[a]? = some b) :
    (a, b) ∈ entries ∨ map[a]? = some b := by
  induction entries generalizing map with
  | nil => exact .inr (by simpa using h)
  | cons entry entries ih =>
      rw [Std.ExtTreeMap.insertMany_cons] at h
      rcases ih h with hrest | hinsert
      · exact .inl (.tail _ hrest)
      · rw [Std.ExtTreeMap.getElem?_insert] at hinsert
        split at hinsert
        next heq =>
            obtain rfl := Std.LawfulEqCmp.eq_of_compare heq
            rw [← Option.some.inj hinsert]
            exact .inl (.head _)
        next => exact .inr hinsert

/-- When a list has one value for every key, so has the map that is made of
it. -/
theorem getElem?_ofList_eq_some_iff [DecidableEq α] {entries : List (α × β)}
    (hunique : ∀ a b b', (a, b) ∈ entries → (a, b') ∈ entries → b = b')
    {a : α} {b : β} :
    (Std.ExtTreeMap.ofList entries order)[a]? = some b ↔
      (a, b) ∈ entries := by
  have hmem : ∀ {c}, (Std.ExtTreeMap.ofList entries order)[a]? = some c →
      (a, c) ∈ entries := by
    intro c hc
    rw [Std.ExtTreeMap.ofList_eq_insertMany_empty] at hc
    exact (mem_of_getElem?_insertMany hc).resolve_right (by simp)
  refine ⟨hmem, fun hab => ?_⟩
  have hkey : a ∈ Std.ExtTreeMap.ofList entries order := by
    rw [Std.ExtTreeMap.mem_ofList, List.contains_iff_mem]
    exact List.mem_map_of_mem hab
  obtain ⟨c, hc⟩ :=
    Option.isSome_iff_exists.mp
      (Std.ExtTreeMap.mem_iff_isSome_getElem?.mp hkey)
  rw [hc, hunique a c b (hmem hc) hab]

end Entries

/-! ## Other keys and values -/

/-- The map with other keys and other values. -/
def relabelMap {α β γ δ : Type} {order : α → α → Ordering}
    (order' : γ → γ → Ordering) [Std.TransCmp order] [Std.TransCmp order']
    (onKey : α → γ) (onValue : β → δ) (map : Std.ExtTreeMap α β order) :
    Std.ExtTreeMap γ δ order' :=
  .ofList (map.toList.map (Prod.map onKey onValue)) order'

section Relabel

variable {α β γ δ : Type} {order : α → α → Ordering}
  {order' : γ → γ → Ordering} [Std.TransCmp order] [Std.LawfulEqCmp order]
  [Std.TransCmp order'] [Std.LawfulEqCmp order'] [DecidableEq γ]
  {onKey : α → γ} {onValue : β → δ} {map : Std.ExtTreeMap α β order}

theorem getElem?_relabelMap
    (hkey : Set.InjOn onKey {a | a ∈ map})
    {c : γ} {d : δ} :
    (relabelMap order' onKey onValue map)[c]? = some d ↔
      ∃ a b, map[a]? = some b ∧ onKey a = c ∧ onValue b = d := by
  have hentry : ∀ {c d}, (c, d) ∈ map.toList.map (Prod.map onKey onValue) ↔
      ∃ a b, map[a]? = some b ∧ onKey a = c ∧ onValue b = d := by
    intro c d
    simp only [List.mem_map, Prod.exists, Prod.map_apply, Prod.mk.injEq,
      Std.ExtTreeMap.mem_toList_iff_getElem?_eq_some]
  rw [relabelMap, getElem?_ofList_eq_some_iff, hentry]
  intro c d d' hd hd'
  obtain ⟨a, b, hab, rfl, rfl⟩ := hentry.mp hd
  obtain ⟨a', b', hab', heq, rfl⟩ := hentry.mp hd'
  obtain rfl :=
    hkey (mem_of_getElem?_eq_some hab') (mem_of_getElem?_eq_some hab) heq
  rw [Option.some.inj (hab.symm.trans hab')]

theorem getElem?_relabelMap_key
    (hkey : Set.InjOn onKey {a | a ∈ map})
    {a : α}
    (ha : a ∈ map) :
    (relabelMap order' onKey onValue map)[onKey a]? =
      map[a]?.map onValue := by
  obtain ⟨b, hb⟩ :=
    Option.isSome_iff_exists.mp
      (Std.ExtTreeMap.mem_iff_isSome_getElem?.mp ha)
  rw [hb, Option.map_some, getElem?_relabelMap hkey]
  exact ⟨a, b, hb, rfl, rfl⟩

theorem mem_relabelMap (hkey : Set.InjOn onKey {a | a ∈ map}) {c : γ} :
    c ∈ relabelMap order' onKey onValue map ↔ ∃ a ∈ map, onKey a = c := by
  rw [Std.ExtTreeMap.mem_iff_isSome_getElem?, Option.isSome_iff_exists]
  simp only [getElem?_relabelMap hkey]
  constructor
  · rintro ⟨d, a, b, hab, rfl, rfl⟩
    exact ⟨a, mem_of_getElem?_eq_some hab, rfl⟩
  · rintro ⟨a, ha, rfl⟩
    obtain ⟨b, hb⟩ :=
      Option.isSome_iff_exists.mp
        (Std.ExtTreeMap.mem_iff_isSome_getElem?.mp ha)
    exact ⟨_, a, b, hb, rfl, rfl⟩

theorem relabelMap_insert {a : α} {b : β}
    (hkey : Set.InjOn onKey {x | x ∈ map.insert a b}) :
    relabelMap order' onKey onValue (map.insert a b) =
      (relabelMap order' onKey onValue map).insert (onKey a)
        (onValue b) := by
  have ha : a ∈ map.insert a b := Std.ExtTreeMap.mem_insert_self
  have hkey' : Set.InjOn onKey {x | x ∈ map} :=
    hkey.mono fun x hx => Std.ExtTreeMap.mem_insert.mpr (.inr hx)
  refine Std.ExtTreeMap.ext_getElem? fun c => Option.ext fun d => ?_
  rw [getElem?_relabelMap hkey, Std.ExtTreeMap.getElem?_insert]
  simp only [Std.ExtTreeMap.getElem?_insert,
    Std.LawfulEqCmp.compare_eq_iff_eq]
  split
  next heq =>
      subst heq
      constructor
      · rintro ⟨x, y, hxy, heq, rfl⟩
        obtain rfl : a = x := by
          refine hkey ha ?_ heq.symm
          exact mem_of_getElem?_eq_some (b := y)
            (by simpa [Std.ExtTreeMap.getElem?_insert] using hxy)
        obtain rfl : b = y := by simpa using hxy
        rfl
      · exact fun h => ⟨a, b, by simp, rfl, Option.some.inj h⟩
  next hne =>
      rw [getElem?_relabelMap hkey']
      refine exists_congr fun x => exists_congr fun y => and_congr_left ?_
      rintro ⟨rfl, -⟩
      rw [if_neg fun heq =>
        hne (congrArg onKey (Std.LawfulEqCmp.eq_of_compare heq))]

end Relabel
end Polyhedra
