import Mathlib
import Polyhedra.Flag.Assembler
import Polyhedra.Proofs.Flag.Fault

/-!
# What resolution reports

The flags of one face are a partial map, and the walk follows the orbit of
the smallest tail.  An orbit either comes back to its start, or reaches a key
that no flag leaves, or repeats a key without ever coming back.  Which of the
faults is reported depends on the step at which this happens, compared with
the number of flags: a path through all flags ends on the step on which the
walk has used up its bound, so its end is not reported.
-/

namespace Polyhedra
namespace FaceFlags

variable {K : Type} [Ord K] [Std.TransOrd K]

/-- The key reached after some steps along the flags, if there are so
many. -/
def orbit (flags : FaceFlags K) (start : K) : ℕ → Option K
  | 0 => some start
  | steps + 1 => (flags.orbit start steps).bind fun key => flags[key]?

/-- The orbit comes back to its start on this step and on no step before
it. -/
structure FirstReturn (flags : FaceFlags K) (start : K) (steps : ℕ) :
    Prop where
  pos : 0 < steps
  back : flags.orbit start steps = some start
  first : ∀ k, 0 < k → k < steps → flags.orbit start k ≠ some start

/-- The tail from which the walk starts. -/
structure IsSmallest (flags : FaceFlags K) (start : K) : Prop where
  mem : start ∈ flags
  le : ∀ key ∈ flags, (compare start key).isLE

section Orbit

variable {flags : FaceFlags K} {start key : K} {steps : ℕ}

theorem orbit_add (i j : ℕ) :
    flags.orbit start (i + j) =
      (flags.orbit start i).bind fun key => flags.orbit key j := by
  induction j with
  | zero => cases flags.orbit start i <;> rfl
  | succ j ih =>
      rw [← Nat.add_assoc, orbit, ih, Option.bind_assoc]
      rfl

theorem orbit_succ_of_flag {next : K}
    (hflag : flags[key]? = some next)
    (k : ℕ) :
    flags.orbit key (k + 1) = flags.orbit next k := by
  rw [Nat.add_comm, orbit_add]
  simp [orbit, hflag]

theorem FirstReturn.unique {other : ℕ}
    (h : flags.FirstReturn start steps)
    (h' : flags.FirstReturn start other) : steps = other := by
  rcases Nat.lt_trichotomy steps other with hlt | heq | hgt
  · exact (h'.first _ h.pos hlt h.back).elim
  · exact heq
  · exact (h.first _ h'.pos hgt h'.back).elim

variable [Std.LawfulEqOrd K]

theorem IsSmallest.unique {other : K}
    (h : flags.IsSmallest start)
    (h' : flags.IsSmallest other) : start = other :=
  Std.LawfulEqOrd.eq_of_compare <|
    Std.OrientedCmp.isLE_antisymm (h.le _ h'.mem) (h'.le _ h.mem)

theorem size_pos_of_mem (h : key ∈ flags) : 0 < flags.size := by
  rw [← Std.ExtTreeMap.length_keys]
  exact List.length_pos_of_mem (Std.ExtTreeMap.mem_keys.mpr h)

variable {last : K} {fault : FaceFault K}

end Orbit

/-! ## The bounded walk along an orbit -/

section Follow

variable [DecidableEq K] {flags : FaceFlags K} {start key : K} {fuel : ℕ}
  {fault : FaceFault K}

/-- What the bounded walk from a key has met when it stops. -/
def Stops (flags : FaceFlags K) (start : K) (fuel : ℕ) (key : K) :
    Except (FaceFault K) (List K) → Prop
  | .ok tails => 0 < tails.length ∧ tails.length ≤ fuel ∧
      flags.orbit key tails.length = some start ∧
      ∀ k, 0 < k → k < tails.length → flags.orbit key k ≠ some start
  | .error (.deadEnd last) =>
      ∃ steps < fuel, flags.orbit key steps = some last ∧ flags[last]? = none
  | .error (.unclosed count) =>
      count = flags.size ∧ (flags.orbit key fuel).isSome ∧
        ∀ k, 0 < k → k ≤ fuel → flags.orbit key k ≠ some start
  | .error _ => False

omit [DecidableEq K] in
/-- What the walk from the next key has met, seen from one key before. -/
theorem Stops.cons {next : K}
    (hflag : flags[key]? = some next)
    (hnext : next ≠ start)
    {result : Except (FaceFault K) (List K)}
    (h : flags.Stops start fuel next result) :
    flags.Stops start (fuel + 1) key (result.map (key :: ·)) := by
  have haway :
      ∀ k bound, (∀ k, 0 < k → k < bound → flags.orbit next k ≠ some start) →
        0 < k → k < bound + 1 → flags.orbit key k ≠ some start := by
    intro k bound hfirst hk hlt
    obtain ⟨k, rfl⟩ := Nat.exists_eq_succ_of_ne_zero hk.ne'
    rw [Nat.succ_eq_add_one, orbit_succ_of_flag hflag]
    rcases Nat.eq_zero_or_pos k with rfl | hk'
    · simpa [orbit] using hnext
    · exact hfirst k hk' (by omega)
  match result, h with
  | .ok tails, ⟨hpos, hle, hback, hfirst⟩ =>
      refine ⟨Nat.succ_pos _, Nat.succ_le_succ hle, ?_,
        fun k => haway k _ hfirst⟩
      rw [List.length_cons, orbit_succ_of_flag hflag, hback]
  | .error (.deadEnd last), ⟨steps, hsteps, hlast, hdead⟩ =>
      exact ⟨steps + 1, by omega, by rw [orbit_succ_of_flag hflag, hlast],
        hdead⟩
  | .error (.unclosed count), ⟨hcount, hsome, hfirst⟩ =>
      refine ⟨hcount, by rwa [orbit_succ_of_flag hflag], fun k hk hle => ?_⟩
      exact haway k (fuel + 1) (fun k hk hlt => hfirst k hk (by omega)) hk
        (by omega)

end Follow

/-! ## Keys without positions -/

section Registration

variable [Std.LawfulEqOrd K] {flags : FaceFlags K} {registered : K → Bool}

variable {fault : FaceFault K}

end Registration

/-! ## The number of lookups -/

section Lookups

variable [DecidableEq K]

/-- Looks up the flag that leaves a key, and keeps the key. -/
def record (flags : FaceFlags K) (key : K) : StateM (List K) (Option K) := do
  modify (· ++ [key])
  pure flags[key]?

variable (flags : FaceFlags K)

end Lookups

end FaceFlags

namespace FlagSystem

variable {F K : Type} [Ord F] [Ord K] [Std.TransOrd F] [Std.TransOrd K]

variable [Std.LawfulEqOrd F] [Std.LawfulEqOrd K]

/-- Every face has a flag. -/
def FacesNonempty (system : FlagSystem F K) : Prop :=
  ∀ (face : F) (flags : FaceFlags K), system.faces[face]? = some flags →
    0 < flags.size

omit [Std.LawfulEqOrd F] in
theorem FacesNonempty.declare {system : FlagSystem F K}
    (h : system.FacesNonempty)
    (declaration : Declaration F K) :
    (system.declare declaration).FacesNonempty := by
  intro face flags hflags
  cases declaration with
  | vertex => exact h face flags hflags
  | flag flag =>
      simp only [FlagSystem.declare, setFlag, Std.ExtTreeMap.getElem?_insert]
        at hflags
      split at hflags
      · obtain rfl := Option.some.inj hflags
        exact FaceFlags.size_pos_of_mem Std.ExtTreeMap.mem_insert_self
      · exact h face flags hflags

omit [Std.LawfulEqOrd F] in
/-- Only a flag makes a face. -/
theorem facesNonempty_ofDeclarations
    (declarations : List (Declaration F K)) :
    (ofDeclarations declarations).FacesNonempty := by
  have hrun : ∀ system : FlagSystem F K, system.FacesNonempty →
      (declarations.foldl FlagSystem.declare system).FacesNonempty := by
    induction declarations with
    | nil => exact fun _ h => h
    | cons declaration rest ih =>
        exact fun system h => ih _ (h.declare declaration)
  refine hrun ∅ fun face flags hflags => ?_
  have hempty : (∅ : Std.ExtTreeMap F (FaceFlags K))[face]? = none := by simp
  exact absurd (hempty.symm.trans hflags) (by simp)

variable [DecidableEq K]

end FlagSystem

namespace Assembler

variable {F K : Type} [Ord F] [Ord K] [Std.TransOrd F] [Std.TransOrd K]
  [DecidableEq K] [ToString F] [ToString K]

theorem resolve_eq_error_iff {assembler : Assembler F K} {name : String}
    {error : MeshError} :
    assembler.resolve name = .error error ↔
      ∃ fault, assembler.system.resolve = .error fault ∧
        fault.toMeshError = error := by
  rw [resolve, solid]
  cases assembler.system.resolve <;>
    simp [bind, Except.bind, pure, Except.pure, Except.mapError]

end Assembler
end Polyhedra
