import Mathlib
import Polyhedra.Flag.Walk
import Polyhedra.Proofs.Surface.Cycle

/-!
# The walk around a face

The flags of one face are a finite map from tails to heads.  A route is the
way that such a map leads from a key until it first points back to the start.
Routes are determined by their first key and pass through no key twice, so a
route through as many keys as there are tails is the one cycle through all of
them; conversely such a cycle, turned to begin at the start, is a route that
no bound on the number of steps cuts off.
-/

namespace Polyhedra
namespace FaceFlags

variable {K : Type} [Ord K] [Std.TransOrd K]

/-- The flags send every one of `keys` to the one after it, the first coming
after the last, and there are no other tails. -/
structure IsCycle (flags : FaceFlags K) (keys : List K) : Prop where
  ne_nil : keys ≠ []
  nodup : keys.Nodup
  mem_iff : ∀ key, key ∈ keys ↔ key ∈ flags
  head_of_step :
    ∀ tail head, (tail, head) ∈ Face.steps keys → flags[tail]? = some head

/-- The way from a key along the flags until one leads to `start`. -/
inductive Route (flags : FaceFlags K) (start : K) : K → List K → Prop where
  | last {key : K} : flags[key]? = some start → Route flags start key [key]
  | step {key next : K} {tails : List K} :
      flags[key]? = some next → next ≠ start → Route flags start next tails →
      Route flags start key (key :: tails)

namespace Route

variable {flags : FaceFlags K} {start key : K} {tails other : List K}

theorem head?_eq (h : Route flags start key tails) :
    tails.head? = some key := by
  cases h <;> rfl

theorem ne_nil (h : Route flags start key tails) : tails ≠ [] := by
  cases h <;> simp

theorem unique
    (h : Route flags start key tails)
    (h' : Route flags start key other) : tails = other := by
  induction h generalizing other with
  | last hflag =>
      cases h' with
      | last => rfl
      | step hflag' hne _ =>
          exact (hne (Option.some.inj (hflag'.symm.trans hflag))).elim
  | step hflag hne _ ih =>
      cases h' with
      | last hflag' =>
          exact (hne (Option.some.inj (hflag.symm.trans hflag'))).elim
      | step hflag' _ hroute =>
          rw [hflag, Option.some.injEq] at hflag'
          subst hflag'
          rw [ih hroute]

/-- What follows a key of a route is the route from this key. -/
theorem suffix
    (h : Route flags start key tails)
    {before after : List K} {k : K}
    (hsplit : tails = before ++ k :: after) :
    Route flags start k (k :: after) := by
  induction h generalizing before with
  | last hflag =>
      cases before with
      | nil =>
          obtain ⟨rfl, rfl⟩ := List.cons.inj hsplit
          exact .last hflag
      | cons _ _ => simp at hsplit
  | step hflag hne hroute ih =>
      cases before with
      | nil =>
          obtain ⟨rfl, rfl⟩ := List.cons.inj hsplit
          exact .step hflag hne hroute
      | cons _ _ => exact ih (List.cons.inj hsplit).2

/-- A key that came back would be followed by two routes of different
lengths. -/
theorem nodup (h : Route flags start key tails) : tails.Nodup := by
  induction h with
  | last => simp
  | @step key next tails hflag hne hroute ih =>
      refine List.nodup_cons.mpr ⟨fun hmem => ?_, ih⟩
      obtain ⟨before, after, hsplit⟩ := List.append_of_mem hmem
      have hsame := (hroute.suffix hsplit).unique (.step hflag hne hroute)
      have hlength := congrArg List.length (hsplit ▸ hsame)
      simp only [List.length_cons, List.length_append] at hlength
      omega

/-- The steps of a route, closed by the flag that leads to the start, are
flags. -/
theorem head_of_zip
    (h : Route flags start key tails)
    {tail head : K}
    (hstep : (tail, head) ∈ tails.zip (tails.drop 1 ++ [start])) :
    flags[tail]? = some head := by
  induction h with
  | last hflag =>
      obtain ⟨rfl, rfl⟩ : tail = _ ∧ head = start := by simpa using hstep
      exact hflag
  | step hflag _ hroute ih =>
      cases hroute with
      | last _ | step _ _ _ =>
          rcases List.mem_cons.mp hstep with heq | hmem
          · obtain ⟨rfl, rfl⟩ := Prod.mk.inj heq
            exact hflag
          · exact ih hmem

theorem mem_flags
    (h : Route flags start key tails)
    [Std.LawfulEqOrd K] {k : K}
    (hk : k ∈ tails) : k ∈ flags := by
  obtain ⟨before, after, hsplit⟩ := List.append_of_mem hk
  cases h.suffix hsplit with
  | last hflag | step hflag _ _ =>
      exact Std.ExtTreeMap.mem_iff_isSome_getElem?.mpr (by simp [hflag])

end Route

variable [DecidableEq K]

/-- The bounded search finds the route from a key if it fits the bound. -/
theorem follow_eq_ok_iff {flags : FaceFlags K} {start key : K} {fuel : ℕ}
    {tails : List K} :
    flags.follow start fuel key = .ok tails ↔
      Route flags start key tails ∧ tails.length ≤ fuel := by
  induction fuel generalizing key tails with
  | zero =>
      simp only [follow, reduceCtorEq, false_iff, Nat.le_zero,
        List.length_eq_zero_iff]
      rintro ⟨hroute, rfl⟩
      exact hroute.ne_nil rfl
  | succ fuel ih =>
      rw [follow]
      constructor
      · intro h
        cases hflag : flags[key]? with
        | none => simp [hflag] at h
        | some next =>
            by_cases hnext : next = start
            · subst hnext
              obtain rfl : [key] = tails := by simpa [hflag] using h
              exact ⟨.last hflag, by simp⟩
            · simp only [hflag, hnext, if_false] at h
              cases hrest : flags.follow start fuel next with
              | error fault => simp [hrest, Except.map] at h
              | ok rest =>
                  obtain rfl : key :: rest = tails := by
                    simpa [hrest, Except.map] using h
                  obtain ⟨hroute, hlength⟩ := ih.mp hrest
                  exact ⟨.step hflag hnext hroute, by simpa using hlength⟩
      · rintro ⟨hroute, hlength⟩
        cases hroute with
        | last hflag => simp [hflag]
        | step hflag hne hrest =>
            have hfound := ih.mpr ⟨hrest, by simpa using hlength⟩
            simp [hflag, hne, hfound, Except.map]

variable [Std.LawfulEqOrd K]

omit [DecidableEq K] in
theorem IsCycle.length_eq {flags : FaceFlags K} {keys : List K}
    (h : flags.IsCycle keys) :
    keys.length = flags.size := by
  rw [← Std.ExtTreeMap.length_keys]
  refine List.Perm.length_eq ((List.perm_ext_iff_of_nodup h.nodup
    (Std.ExtTreeMap.nodup_keys)).mpr fun key => ?_)
  rw [h.mem_iff, Std.ExtTreeMap.mem_keys]

omit [DecidableEq K] [Std.LawfulEqOrd K] in
theorem IsCycle.rotate {flags : FaceFlags K} {keys : List K}
    (h : flags.IsCycle keys)
    (n : ℕ) :
    flags.IsCycle (keys.rotate n) where
  ne_nil := by simpa using h.ne_nil
  nodup := List.nodup_rotate.mpr h.nodup
  mem_iff key := by rw [List.mem_rotate, h.mem_iff]
  head_of_step tail head hstep :=
    h.head_of_step tail head
      (by rwa [Face.steps_rotate, List.mem_rotate] at hstep)

omit [DecidableEq K] [Std.LawfulEqOrd K] in
/-- The steps of a cycle are the flags. -/
theorem IsCycle.mem_steps_iff {flags : FaceFlags K} {keys : List K}
    (h : flags.IsCycle keys)
    {a b : K} :
    (a, b) ∈ Face.steps keys ↔ flags[a]? = some b := by
  refine ⟨h.head_of_step a b, fun hflag => ?_⟩
  have ha : a ∈ keys :=
    (h.mem_iff a).mpr
      (Std.ExtTreeMap.mem_iff_isSome_getElem?.mpr (by simp [hflag]))
  obtain ⟨c, hstep⟩ := Face.exists_step_from ha
  have hc := h.head_of_step a c hstep
  rw [hflag, Option.some.injEq] at hc
  exact hc ▸ hstep

omit [DecidableEq K] [Std.LawfulEqOrd K] in
/-- The cycles of one face differ in where they start. -/
theorem IsCycle.isRotated {flags : FaceFlags K} {keys other : List K}
    (h : flags.IsCycle keys)
    (h' : flags.IsCycle other) : keys ~r other :=
  Face.isRotated_of_steps h.nodup h'.nodup h.ne_nil fun a b => by
    rw [h.mem_steps_iff, h'.mem_steps_iff]

omit [DecidableEq K] [Std.LawfulEqOrd K] in
/-- The part of a cycle from any of its keys on is the route from there to
the first key. -/
theorem IsCycle.route {flags : FaceFlags K} {start : K} {rest : List K}
    (h : flags.IsCycle (start :: rest))
    (before : List K) {key : K} {after : List K}
    (hsplit : start :: rest = before ++ key :: after) :
    Route flags start key (key :: after) := by
  have hhead :
      ∀ k head : K, (k, head) ∈ (start :: rest).zip (rest ++ [start]) →
        flags[k]? = some head :=
    h.head_of_step
  have hstart : start ∉ rest := (List.nodup_cons.mp h.nodup).1
  induction after generalizing before key with
  | nil =>
      refine .last (hhead _ _ ?_)
      have hlength : rest.length = before.length := by
        simpa using congrArg List.length hsplit
      refine List.mem_iff_getElem?.mpr
        ⟨before.length, List.getElem?_zip_eq_some.mpr ?_⟩
      constructor
      · rw [hsplit]; simp
      · simp [hlength]
  | cons next after ih =>
      have hnext : next ∈ rest := by
        have hmem : next ∈ (before ++ key :: next :: after).tail := by
          cases before <;> simp
        rwa [← hsplit] at hmem
      refine .step (hhead key next ?_) (fun heq => hstart (heq ▸ hnext))
        (ih (before ++ [key]) (by simpa using hsplit))
      refine List.mem_iff_getElem?.mpr
        ⟨before.length, List.getElem?_zip_eq_some.mpr ?_⟩
      constructor
      · rw [hsplit]; simp
      · have hget : (start :: rest)[before.length + 1]? = some next := by
          rw [hsplit]
          simp
        rw [List.getElem?_cons_succ] at hget
        rw [List.getElem?_append_left (List.getElem?_eq_some_iff.mp hget).1,
          hget]

omit [DecidableEq K] in
/-- A route back to its own start that has as many keys as there are flags is
a cycle. -/
theorem Route.isCycle {flags : FaceFlags K} {start : K} {tails : List K}
    (h : Route flags start start tails)
    (hsize : tails.length = flags.size) :
    flags.IsCycle tails := by
  have hsub : tails ⊆ flags.keys :=
    fun k hk => Std.ExtTreeMap.mem_keys.mpr (h.mem_flags hk)
  have hperm : tails.Perm flags.keys :=
    (h.nodup.subperm hsub).perm_of_length_le (by simp [hsize])
  refine ⟨h.ne_nil, h.nodup,
    fun key => ?_, fun tail head hstep => h.head_of_zip ?_⟩
  · rw [hperm.mem_iff, Std.ExtTreeMap.mem_keys]
  · have hhead := h.head?_eq
    cases tails with
    | nil => simp at hhead
    | cons first rest =>
        obtain rfl : first = start := by simpa using hhead
        exact hstep

/-- A walk is a cycle through all tails that starts at the smallest one. -/
theorem cycle_eq_ok_iff {flags : FaceFlags K} {keys : List K} :
    flags.cycle = .ok keys ↔
      flags.IsCycle keys ∧ keys.head? = flags.keys.head? := by
  rw [cycle]
  cases hstart : flags.keys.head? with
  | none =>
      simp only [reduceCtorEq, false_iff, List.head?_eq_none_iff]
      rintro ⟨hcycle, hnil⟩
      exact hcycle.ne_nil hnil
  | some start =>
      simp only
      constructor
      · intro h
        cases hfollow : flags.follow start flags.size start with
        | error fault => simp [hfollow, Except.bind] at h
        | ok tails =>
            obtain ⟨hsize, rfl⟩ :
                tails.length = flags.size ∧ tails = keys := by
              simp only [hfollow, Except.bind] at h
              split at h <;> simp_all
            obtain ⟨hroute, -⟩ := follow_eq_ok_iff.mp hfollow
            exact ⟨hroute.isCycle hsize, hroute.head?_eq⟩
      · rintro ⟨hcycle, hhead⟩
        cases keys with
        | nil => simp at hhead
        | cons first rest =>
            obtain rfl : first = start := by simpa using hhead
            have hroute : Route flags first first (first :: rest) :=
              hcycle.route [] rfl
            have hfollow :=
              follow_eq_ok_iff.mpr ⟨hroute, hcycle.length_eq.le⟩
            rw [hfollow]
            exact if_pos hcycle.length_eq

/-- The walk succeeds when the flags are one cycle in any order. -/
theorem exists_cycle_eq_ok_iff {flags : FaceFlags K} :
    (∃ keys, flags.cycle = .ok keys) ↔ ∃ keys, flags.IsCycle keys := by
  simp only [cycle_eq_ok_iff]
  refine ⟨fun ⟨keys, h, _⟩ => ⟨keys, h⟩, fun ⟨keys, h⟩ => ?_⟩
  cases hstart : flags.keys.head? with
  | none =>
      rw [List.head?_eq_none_iff] at hstart
      obtain ⟨key, hkey⟩ := List.exists_mem_of_ne_nil keys h.ne_nil
      have hmem : key ∈ flags.keys :=
        Std.ExtTreeMap.mem_keys.mpr ((h.mem_iff key).mp hkey)
      simp [hstart] at hmem
  | some start =>
      have hmem : start ∈ keys :=
        (h.mem_iff start).mpr
          (Std.ExtTreeMap.mem_keys.mp (List.mem_of_head? hstart))
      obtain ⟨n, hn⟩ := Face.exists_rotate_head hmem
      exact ⟨keys.rotate n, h.rotate n, hn⟩

omit [DecidableEq K] in
/-- No key of the flags is unregistered. -/
theorem unregistered?_eq_none_iff {flags : FaceFlags K}
    {registered : K → Bool} :
    flags.unregistered? registered = none ↔
      ∀ tail head, flags[tail]? = some head →
        registered tail ∧ registered head := by
  rw [unregistered?, List.findSome?_eq_none_iff]
  simp only [Prod.forall, Std.ExtTreeMap.mem_toList_iff_getElem?_eq_some]
  refine forall_congr' fun tail => forall_congr' fun head =>
    imp_congr_right fun _ => ?_
  cases registered tail <;> cases registered head <;> simp

theorem walk_eq_ok_iff {flags : FaceFlags K} {registered : K → Bool}
    {keys : List K} :
    flags.walk registered = .ok keys ↔
      (∀ tail head, flags[tail]? = some head →
        registered tail ∧ registered head) ∧ flags.IsCycle keys ∧
      keys.head? = flags.keys.head? := by
  rw [← unregistered?_eq_none_iff, ← cycle_eq_ok_iff, walk]
  cases flags.unregistered? registered <;> simp

end FaceFlags
end Polyhedra
