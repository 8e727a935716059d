import Mathlib

/-!
# Computations that can fail

When a computation in `Except` succeeds and how it fails, stated for the ways
in which the library puts such computations together.
-/

namespace Polyhedra
namespace Except

variable {α β ε δ : Type}

theorem bind_eq_ok_iff {x : Except ε α} {f : α → Except ε β} {b : β} :
    (x >>= f) = .ok b ↔ ∃ a, x = .ok a ∧ f a = .ok b := by
  cases x <;> simp [bind, Except.bind]

theorem mapError_eq_ok_iff {x : Except ε α} {f : ε → δ} {a : α} :
    x.mapError f = .ok a ↔ x = .ok a := by
  cases x <;> simp [Except.mapError]

theorem mapError_eq_error_iff {x : Except ε α} {f : ε → δ} {error : δ} :
    x.mapError f = .error error ↔
      ∃ cause, x = .error cause ∧ f cause = error := by
  cases x <;> simp [Except.mapError]

theorem mapM_eq_ok_iff {f : α → Except ε β} {xs : List α} {ys : List β} :
    xs.mapM f = .ok ys ↔ List.Forall₂ (fun x y => f x = .ok y) xs ys := by
  induction xs generalizing ys with
  | nil =>
      rw [List.mapM_nil, List.forall₂_nil_left_iff]
      exact ⟨fun h => (Except.ok.inj h).symm, fun h => h ▸ rfl⟩
  | cons x xs ih =>
      rw [List.mapM_cons, List.forall₂_cons_left_iff]
      simp only [bind_eq_ok_iff, ih]
      constructor
      · rintro ⟨y, hy, rest, hrest, heq⟩
        exact ⟨y, rest, hy, hrest, (Except.ok.inj heq).symm⟩
      · rintro ⟨y, rest, hy, hrest, rfl⟩
        exact ⟨y, hy, rest, hrest, rfl⟩

/-- A computation on every entry of a list succeeds when it does on each of
them. -/
theorem exists_mapM_eq_ok_iff {f : α → Except ε β} {xs : List α} :
    (∃ ys, xs.mapM f = .ok ys) ↔ ∀ x ∈ xs, ∃ y, f x = .ok y := by
  simp only [mapM_eq_ok_iff]
  induction xs with
  | nil => simp
  | cons x xs ih =>
      rw [List.forall_mem_cons, ← ih]
      constructor
      · rintro ⟨ys, hys⟩
        obtain ⟨y, rest, hy, hrest, -⟩ := List.forall₂_cons_left_iff.mp hys
        exact ⟨⟨y, hy⟩, rest, hrest⟩
      · rintro ⟨⟨y, hy⟩, rest, hrest⟩
        exact ⟨y :: rest, .cons hy hrest⟩

theorem mem_iff_of_mapM_eq_ok {f : α → Except ε β} {xs : List α}
    {ys : List β} (h : xs.mapM f = .ok ys)
    {y : β} :
    y ∈ ys ↔ ∃ x ∈ xs, f x = .ok y := by
  induction mapM_eq_ok_iff.mp h with
  | nil => simp
  | @cons x z xs ys hfirst hrest ih =>
      have hrest : y ∈ ys ↔ ∃ x ∈ xs, f x = .ok y :=
        ih (mapM_eq_ok_iff.mpr hrest)
      rw [List.mem_cons, hrest, List.exists_mem_cons_iff, hfirst,
        Except.ok.injEq]
      exact or_congr_left eq_comm

/-- A computation on every entry of a list fails as it does on the first
entry that it fails on. -/
theorem mapM_eq_error_iff {f : α → Except ε β} {xs : List α} {error : ε} :
    xs.mapM f = .error error ↔ ∃ before x after, xs = before ++ x :: after ∧
      (∀ y ∈ before, ∃ b, f y = .ok b) ∧ f x = .error error := by
  induction xs with
  | nil => simp [pure, Except.pure]
  | cons first rest ih =>
      rw [List.mapM_cons]
      simp only [List.cons_eq_append_iff]
      cases hfirst : f first with
      | error other =>
          constructor
          · intro h
            obtain rfl : other = error := Except.error.inj h
            exact ⟨[], first, rest, .inl ⟨rfl, rfl⟩, by simp, hfirst⟩
          · rintro ⟨before, x, after, ⟨rfl, heq⟩ | ⟨tail, rfl, rfl⟩, hbefore,
              hx⟩
            · obtain ⟨rfl, rfl⟩ := List.cons.inj heq
              obtain rfl := Except.error.inj (hfirst.symm.trans hx)
              rfl
            · obtain ⟨b, hb⟩ := hbefore first List.mem_cons_self
              simp [hfirst] at hb
      | ok b =>
          have hrest : (Except.ok b >>=
                  fun y => rest.mapM f >>= fun ys => pure (y :: ys)) =
                (.error error : Except ε (List β)) ↔
              rest.mapM f = .error error := by
            cases rest.mapM f <;> simp [bind, Except.bind, pure, Except.pure]
          rw [hrest, ih]
          constructor
          · rintro ⟨before, x, after, rfl, hbefore, hx⟩
            refine ⟨first :: before, x, after, .inr ⟨before, rfl, rfl⟩, ?_,
              hx⟩
            exact List.forall_mem_cons.mpr ⟨⟨b, hfirst⟩, hbefore⟩
          · rintro ⟨before, x, after, ⟨rfl, heq⟩ | ⟨tail, rfl, rfl⟩, hbefore,
              hx⟩
            · obtain ⟨rfl, rfl⟩ := List.cons.inj heq
              simp [hfirst] at hx
            · exact ⟨tail, x, after, rfl,
                (List.forall_mem_cons.mp hbefore).2, hx⟩

/-- A computation that carries a state through a list fails as it does on the
first entry that it fails on, in the state that the entries before it lead
to. -/
theorem foldlM_eq_error_iff {f : β → α → Except ε β} {xs : List α}
    {state : β} {error : ε} :
    xs.foldlM f state = .error error ↔
      ∃ (k : ℕ) (x : α) (reached : β),
        (xs.take k).foldlM f state = .ok reached ∧ xs[k]? = some x ∧
        f reached x = .error error := by
  induction xs generalizing state with
  | nil => simp [pure, Except.pure]
  | cons first rest ih =>
      rw [List.foldlM_cons]
      cases hfirst : f state first with
      | error other =>
          constructor
          · intro h
            obtain rfl : other = error := Except.error.inj h
            exact ⟨0, first, state, rfl, rfl, hfirst⟩
          · rintro ⟨k, x, reached, hreached, hx, herror⟩
            cases k with
            | zero =>
                obtain rfl := Except.ok.inj hreached
                obtain rfl := Option.some.inj hx
                exact hfirst.symm.trans herror
            | succ k => simp [hfirst, bind, Except.bind] at hreached
      | ok next =>
          change rest.foldlM f next = .error error ↔ _
          rw [ih]
          constructor
          · rintro ⟨k, x, reached, hreached, hx, herror⟩
            refine ⟨k + 1, x, reached, ?_, hx, herror⟩
            rw [List.take_succ_cons, List.foldlM_cons, hfirst]
            exact hreached
          · rintro ⟨k, x, reached, hreached, hx, herror⟩
            cases k with
            | zero =>
                obtain rfl := Except.ok.inj hreached
                obtain rfl := Option.some.inj hx
                simp [hfirst] at herror
            | succ k =>
                rw [List.take_succ_cons, List.foldlM_cons, hfirst]
                  at hreached
                exact ⟨k, x, reached, hreached, hx, herror⟩

/-! ## Two computations -/

/-- Both computations fail, or both succeed with related results. -/
def Related {γ : Type} (r : α → β → Prop) : Except ε α → Except γ β → Prop
  | .ok a, .ok b => r a b
  | .error _, .error _ => True
  | _, _ => False

section Related

variable {α' β' γ : Type} {r : α → β → Prop} {s : α' → β' → Prop}

theorem related_iff {x : Except ε α} {y : Except δ β} :
    Related r x y ↔ ((∃ a, x = .ok a) ↔ ∃ b, y = .ok b) ∧
      ∀ a b, x = .ok a → y = .ok b → r a b := by
  cases x <;> cases y <;> simp [Related]

theorem Related.bind {x : Except ε α} {y : Except δ β} {f : α → Except ε α'}
    {g : β → Except δ β'}
    (h : Related r x y)
    (hnext : ∀ a b, r a b → Related s (f a) (g b)) :
    Related s (x >>= f) (y >>= g) := by
  cases x <;> cases y
  · trivial
  · exact h.elim
  · exact h.elim
  · exact hnext _ _ h

theorem Related.mono {r' : α → β → Prop} {x : Except ε α} {y : Except δ β}
    (h : Related r x y)
    (himp : ∀ a b, r a b → r' a b) : Related r' x y := by
  cases x <;> cases y
  · trivial
  · exact h.elim
  · exact h.elim
  · exact himp _ _ h

end Related

end Except
end Polyhedra
