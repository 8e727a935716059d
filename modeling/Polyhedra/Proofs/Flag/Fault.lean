import Mathlib
import Polyhedra.Proofs.Flag.Construction
import Polyhedra.Proofs.Incidence.Permuting

/-!
# How resolution fails

Resolution stops at the first face, by ascending keys, whose flags are not
sound.  When the flags of a face permute its vertices, the walk around it
always comes back to its start, so the one thing that can be wrong is that it
comes back too early.
-/

namespace Polyhedra
namespace FaceFlags

variable {K : Type} [Ord K] [Std.TransOrd K]

/-- Every head is a tail, and no two tails have the same head. -/
structure Permutes (flags : FaceFlags K) : Prop where
  next : ∀ tail head : K, flags[tail]? = some head → head ∈ flags
  unique : ∀ tail other head : K, flags[tail]? = some head →
    flags[other]? = some head → tail = other

/-- The heads of permuting flags, as a map between the tails. -/
theorem Permutes.exists_next {flags : FaceFlags K} (h : flags.Permutes) :
    ∃ next : {key // key ∈ flags} → {key // key ∈ flags}, next.Injective ∧
      ∀ tail, flags[tail.1]? = some (next tail).1 := by
  have hhead : ∀ tail : {key // key ∈ flags}, ∃ head : {key // key ∈ flags},
      flags[tail.1]? = some head.1 := by
    intro tail
    obtain ⟨head, hflag⟩ :=
      Option.isSome_iff_exists.mp
        (Std.ExtTreeMap.mem_iff_isSome_getElem?.mp tail.2)
    exact ⟨⟨head, h.next _ _ hflag⟩, hflag⟩
  choose next hnext using hhead
  refine ⟨next, fun tail other heq => ?_, hnext⟩
  exact Subtype.ext (h.unique _ _ _ (hnext tail) (heq ▸ hnext other))

/-- The route from the tail that lies `steps` before the start, up to the
period. -/
theorem exists_route_of_iterate {flags : FaceFlags K}
    {next : {key // key ∈ flags} → {key // key ∈ flags}}
    (hnext : ∀ tail, flags[tail.1]? = some (next tail).1)
    {first : {key // key ∈ flags}} {steps : ℕ}
    (hsteps : 0 < steps)
    (hle : steps ≤ Function.minimalPeriod next first) :
    ∃ tails, Route flags first.1
      (next^[Function.minimalPeriod next first - steps] first).1 tails := by
  -- a route is built from its end, so the induction goes back from the start
  induction steps, hsteps using Nat.le_induction with
  | base =>
      refine ⟨_, .last ?_⟩
      rw [hnext, ← Function.iterate_succ_apply' next, Nat.succ_eq_add_one,
        Nat.sub_add_cancel hle, Function.iterate_minimalPeriod]
  | succ steps hsteps ih =>
      obtain ⟨tails, htails⟩ := ih (by omega)
      refine ⟨_, .step ?_ ?_ htails⟩
      · rw [hnext, ← Function.iterate_succ_apply' next]
        congr 4
        omega
      · intro heq
        exact Function.not_isPeriodicPt_of_pos_of_lt_minimalPeriod
          (x := first) (f := next) (by omega) (by omega) (Subtype.ext heq)

variable [Std.LawfulEqOrd K]

theorem finite_tails (flags : FaceFlags K) : {key | key ∈ flags}.Finite :=
  (List.finite_toSet flags.keys).subset fun _ hkey =>
    Std.ExtTreeMap.mem_keys.mpr hkey

theorem Route.length_le {flags : FaceFlags K} {start key : K}
    {tails : List K} (h : Route flags start key tails) :
    tails.length ≤ flags.size := by
  have hsub : tails ⊆ flags.keys :=
    fun k hk => Std.ExtTreeMap.mem_keys.mpr (h.mem_flags hk)
  rw [← Std.ExtTreeMap.length_keys]
  exact (h.nodup.subperm hsub).length_le

/-- A permutation leads from every tail back to it. -/
theorem Permutes.exists_route {flags : FaceFlags K}
    (h : flags.Permutes)
    {start : K}
    (hstart : start ∈ flags) :
    ∃ tails, Route flags start start tails := by
  obtain ⟨next, hinjective, hnext⟩ := h.exists_next
  have hfinite : Finite {key // key ∈ flags} := finite_tails flags
  have hpos : 0 < Function.minimalPeriod next ⟨start, hstart⟩ :=
    Function.minimalPeriod_pos_of_mem_periodicPts
      (hinjective.mem_periodicPts _)
  have hroute := exists_route_of_iterate hnext hpos le_rfl
  rwa [Nat.sub_self] at hroute

variable [DecidableEq K]

/-- The walk along a permutation fails only by coming back too early. -/
theorem Permutes.exists_closedEarly {flags : FaceFlags K}
    (h : flags.Permutes)
    (hne : ∃ key, key ∈ flags)
    {fault : FaceFault K}
    (hfault : flags.cycle = .error fault) :
    ∃ steps < flags.size, fault = .closedEarly steps flags.size := by
  rw [cycle] at hfault
  cases hstart : flags.keys.head? with
  | none =>
      obtain ⟨key, hkey⟩ := hne
      have hmem := Std.ExtTreeMap.mem_keys.mpr hkey
      simp [List.head?_eq_none_iff.mp hstart] at hmem
  | some start =>
      obtain ⟨tails, hroute⟩ :=
        h.exists_route
          (Std.ExtTreeMap.mem_keys.mp (List.mem_of_head? hstart))
      have hfollow := follow_eq_ok_iff.mpr ⟨hroute, hroute.length_le⟩
      simp only [hstart, hfollow, Except.bind] at hfault
      split at hfault
      next => simp at hfault
      next hlength =>
          exact ⟨tails.length, lt_of_le_of_ne hroute.length_le hlength,
            (Except.error.inj hfault).symm⟩

omit [DecidableEq K] in
/-- The flags of a face are a cycle as a map when they are one as a
relation. -/
theorem exists_isCycle_iff {flags : FaceFlags K} :
    (∃ keys, flags.IsCycle keys) ↔
      (∃ key, key ∈ flags) ∧
      Incidence.IsCycle fun v w : K => flags[v]? = some w := by
  constructor
  · rintro ⟨keys, h⟩
    obtain ⟨key, hkey⟩ := List.exists_mem_of_ne_nil keys h.ne_nil
    refine ⟨⟨key, (h.mem_iff key).mp hkey⟩,
      Incidence.isCycle_of_steps h.nodup fun v w => ?_⟩
    refine ⟨fun hflag => ?_, h.head_of_step v w⟩
    have hv : v ∈ keys :=
      (h.mem_iff v).mpr
        (Std.ExtTreeMap.mem_iff_isSome_getElem?.mpr (by simp [hflag]))
    obtain ⟨head, hstep⟩ := Face.exists_step_from hv
    rw [h.head_of_step v head hstep, Option.some.injEq] at hflag
    exact hflag ▸ hstep
  · rintro ⟨⟨key, hkey⟩, h⟩
    have hmem : ∀ v, (∃ w, flags[v]? = some w) ↔ v ∈ flags := by
      intro v
      rw [Std.ExtTreeMap.mem_iff_isSome_getElem?, Option.isSome_iff_exists]
    have hcyclic :
        Incidence.Cyclic fun (_ : Unit) (v w : K) => flags[v]? = some w :=
      .of_isCycle fun _ _ _ _ => h
    obtain ⟨head, hhead⟩ := (hmem key).mpr hkey
    obtain ⟨keys, hfirst, hnodup, hall, hsteps⟩ :=
      hcyclic.exists_cycle (f := ())
        ((finite_tails flags).subset fun v hv => (hmem v).mp hv) hhead
    refine ⟨keys, ?_, hnodup, fun v => (hall v).trans (hmem v), hsteps⟩
    rintro rfl
    simp at hfirst

end FaceFlags

namespace FlagSystem

variable {F K : Type} [Ord F] [Ord K] [Std.TransOrd F] [Std.TransOrd K]
  [Std.LawfulEqOrd F] [Std.LawfulEqOrd K] [DecidableEq K]

/-- Resolution fails at the first face, by ascending keys, whose flags are
not sound. -/
theorem resolve_eq_error_iff {system : FlagSystem F K}
    {fault : FlagFault F K} :
    system.resolve = .error fault ↔
      ∃ face flags, system.faces[face]? = some flags ∧
        system.walk face flags = .error fault ∧
        ∀ other flags', system.faces[other]? = some flags' →
          compare other face = .lt → system.Sound flags' := by
  have hresolve :
      system.resolve = .error fault ↔ system.cycles = .error fault := by
    rw [resolve]
    cases system.cycles <;> simp [bind, Except.bind, pure, Except.pure]
  -- the faces before the one that fails are those with smaller keys
  rw [hresolve, cycles, Except.mapM_eq_error_iff]
  constructor
  · rintro ⟨before, ⟨face, flags⟩, after, hsplit, hbefore, hfault⟩
    have hmem : (face, flags) ∈ system.faces.toList := by simp [hsplit]
    refine ⟨face, flags,
      Std.ExtTreeMap.mem_toList_iff_getElem?_eq_some.mp hmem, hfault, ?_⟩
    intro other flags' hother hlt
    exact exists_walk_eq_ok_iff.mp
      (hbefore _ ((mem_before_iff hsplit).mpr ⟨hother, hlt⟩))
  · rintro ⟨face, flags, hflags, hfault, hsound⟩
    obtain ⟨before, after, hsplit⟩ :=
      List.append_of_mem
        (Std.ExtTreeMap.mem_toList_iff_getElem?_eq_some.mpr hflags)
    refine ⟨before, _, after, hsplit, ?_, hfault⟩
    rintro ⟨other, flags'⟩ hbefore
    obtain ⟨hother, hlt⟩ := (mem_before_iff hsplit).mp hbefore
    exact exists_walk_eq_ok_iff.mpr (hsound other flags' hother hlt)

omit [Std.TransOrd F] [Std.LawfulEqOrd F] in
/-- When all keys are registered, a walk fails as the walk along the flags
does. -/
theorem walk_eq_error {system : FlagSystem F K} {face : F}
    {flags : FaceFlags K} {fault : FlagFault F K}
    (hwalk : system.walk face flags = .error fault)
    (hregistered : ∀ tail head, flags[tail]? = some head →
      tail ∈ system.positions ∧ head ∈ system.positions) :
    fault.face = face ∧ flags.cycle = .error fault.fault := by
  have hnone : flags.unregistered? system.positions.contains = none := by
    rw [FaceFlags.unregistered?_eq_none_iff]
    simpa only [Std.ExtTreeMap.contains_iff_mem] using hregistered
  rw [walk, FaceFlags.walk, hnone] at hwalk
  cases hcycle : flags.cycle with
  | ok tails => simp [hcycle, Except.mapError] at hwalk
  | error why =>
      obtain rfl : (⟨face, why⟩ : FlagFault F K) = fault := by
        simpa [hcycle, Except.mapError] using hwalk
      exact ⟨rfl, rfl⟩

/-! ## Systems of permuting faces -/

section Permuting

variable {G L : Type} {R : Incidence G L}
  (hR : R.Permuting)
  {onFace : G → F} {onKey : L → K}
  (hface : Set.InjOn onFace R.faces)
  (hkey : Set.InjOn onKey R.tails)
  {system : FlagSystem F K}
  (hsystem : system.incidence = R.rename onFace onKey)
  {f : G} {flags : FaceFlags K}
  (hflags : system.faces[onFace f]? = some flags)
include hsystem hflags

omit [Std.LawfulEqOrd F] [Std.LawfulEqOrd K] [DecidableEq K] in
theorem flags_eq_rename :
    (fun v w : K => flags[v]? = some w) =
      R.rename onFace onKey (onFace f) := by
  ext v w
  rw [← hsystem, incidence_of_getElem? hflags]

include hface in
omit [Std.LawfulEqOrd F] [Std.LawfulEqOrd K] [DecidableEq K] in
theorem getElem?_flags_iff (hf : f ∈ R.faces) {x y : K} :
    flags[x]? = some y ↔ ∃ v w, R f v w ∧ onKey v = x ∧ onKey w = y := by
  have hflag : flags[x]? = some y ↔ R.rename onFace onKey (onFace f) x y :=
    iff_of_eq (congrFun₂ (flags_eq_rename hsystem hflags) x y)
  rw [hflag, Incidence.rename_iff_of_mem_faces hface hf]

include hR hface hkey in
omit [Std.LawfulEqOrd F] [Std.LawfulEqOrd K] [DecidableEq K] in
theorem permutes_of_permuting (hf : f ∈ R.faces) : flags.Permutes where
  next := by
    intro x y h
    obtain ⟨v, w, hvw, rfl, rfl⟩ :=
      (getElem?_flags_iff hface hsystem hflags hf).mp h
    obtain ⟨u, hwu⟩ := hR.next hvw
    have hnext :=
      (getElem?_flags_iff hface hsystem hflags hf).mpr ⟨w, u, hwu, rfl, rfl⟩
    exact mem_of_getElem?_eq_some hnext
  unique := by
    intro x x' y h h'
    obtain ⟨v, w, hvw, rfl, rfl⟩ :=
      (getElem?_flags_iff hface hsystem hflags hf).mp h
    obtain ⟨v', w', hvw', rfl, hw⟩ :=
      (getElem?_flags_iff hface hsystem hflags hf).mp h'
    obtain rfl := hkey (hR.head_mem_tails hvw') (hR.head_mem_tails hvw) hw
    rw [hR.tail_unique hvw hvw']

include hface hkey in
omit [Std.LawfulEqOrd F] in
theorem size_flags (hf : f ∈ R.faces) :
    flags.size = {v | ∃ w, R f v w}.ncard := by
  have htails : {x | x ∈ flags} = onKey '' {v | ∃ w, R f v w} := by
    ext x
    rw [Set.mem_ofPred_eq, Std.ExtTreeMap.mem_iff_isSome_getElem?,
      Option.isSome_iff_exists]
    constructor
    · rintro ⟨y, h⟩
      obtain ⟨v, w, hvw, rfl, rfl⟩ :=
        (getElem?_flags_iff hface hsystem hflags hf).mp h
      exact ⟨v, ⟨w, hvw⟩, rfl⟩
    · rintro ⟨v, ⟨w, hvw⟩, rfl⟩
      exact ⟨_, (getElem?_flags_iff hface hsystem hflags hf).mpr
        ⟨v, w, hvw, rfl, rfl⟩⟩
  have hsub : {v | ∃ w, R f v w} ⊆ R.tails :=
    fun v ⟨w, hvw⟩ => Incidence.mem_tails hvw
  rw [size_eq_ncard, htails, (hkey.mono hsub).ncard_image]

include hface in
omit [Std.LawfulEqOrd F] [Std.LawfulEqOrd K] [DecidableEq K] in
theorem exists_mem_flags (hf : f ∈ R.faces) : ∃ x, x ∈ flags := by
  obtain ⟨v, w, hvw⟩ := id hf
  exact ⟨_, mem_of_getElem?_eq_some
    ((getElem?_flags_iff hface hsystem hflags hf).mpr ⟨v, w, hvw, rfl, rfl⟩)⟩

variable (hregistered : ∀ v ∈ R.tails, onKey v ∈ system.positions)
include hR hregistered

include hface in
omit [Std.LawfulEqOrd F] [Std.LawfulEqOrd K] [DecidableEq K] in
theorem flags_registered
    (hf : f ∈ R.faces)
    (x y : K)
    (h : flags[x]? = some y) :
    x ∈ system.positions ∧ y ∈ system.positions := by
  obtain ⟨v, w, hvw, rfl, rfl⟩ :=
    (getElem?_flags_iff hface hsystem hflags hf).mp h
  exact ⟨hregistered v (Incidence.mem_tails hvw),
    hregistered w (hR.head_mem_tails hvw)⟩

include hface hkey in
omit [Std.LawfulEqOrd F] [DecidableEq K] in
theorem sound_iff_isCycle (hf : f ∈ R.faces) :
    system.Sound flags ↔ Incidence.IsCycle (R f) := by
  rw [Sound,
    and_iff_right (flags_registered hR hface hsystem hflags hregistered hf),
    FaceFlags.exists_isCycle_iff,
    and_iff_right (exists_mem_flags hface hsystem hflags hf),
    flags_eq_rename hsystem hflags, hR.isCycle_rename_iff hface hkey hf]

include hface hkey in
omit [Std.LawfulEqOrd F] in
theorem closedEarly_of_walk
    (hf : f ∈ R.faces)
    {fault : FlagFault F K}
    (hwalk : system.walk (onFace f) flags = .error fault) :
    ∃ steps < {v | ∃ w, R f v w}.ncard,
      fault = ⟨onFace f, .closedEarly steps {v | ∃ w, R f v w}.ncard⟩ := by
  obtain ⟨hfault, hcycle⟩ :=
    walk_eq_error hwalk
      (flags_registered hR hface hsystem hflags hregistered hf)
  obtain ⟨steps, hsteps, hwhy⟩ :=
    (permutes_of_permuting hR hface hkey hsystem hflags
        hf).exists_closedEarly (exists_mem_flags hface hsystem hflags hf)
      hcycle
  rw [size_flags hface hkey hsystem hflags hf] at hsteps hwhy
  refine ⟨steps, hsteps, ?_⟩
  obtain ⟨face, why⟩ := fault
  obtain rfl : face = onFace f := hfault
  obtain rfl : why = _ := hwhy
  rfl

end Permuting

end FlagSystem

namespace Blueprint

variable {F K : Type} [Ord F] [Ord K] [Std.TransOrd F] [Std.TransOrd K]
  [Std.LawfulEqOrd F] [Std.LawfulEqOrd K] [DecidableEq F] [DecidableEq K]

section Build

variable [ToString F] [ToString K] {blueprint : Blueprint F K}
  (hpolygons : blueprint.polygons = []) (name : String)
include hpolygons

omit [Std.LawfulEqOrd F] [Std.LawfulEqOrd K] [DecidableEq F] in
/-- Without polygons a construction is what its flags resolve to. -/
theorem build_eq_resolve :
    blueprint.build name =
      (blueprint.system.resolve.mapError FlagFault.toMeshError).map
        (Solid.named · name) := by
  have hassembler :
      blueprint.assembler = .ok { system := blueprint.system } := by
    rw [assembler, hpolygons]
    rfl
  rw [build, hassembler]
  change Assembler.resolve _ name = _
  rw [Assembler.resolve, Assembler.solid]
  cases blueprint.system.resolve <;>
    simp [bind, Except.bind, pure, Except.pure, Except.mapError, Except.map]

omit [Std.LawfulEqOrd F] [Std.LawfulEqOrd K] [DecidableEq F] in
theorem build_eq_error {fault : FlagFault F K}
    (h : blueprint.system.resolve = .error fault) :
    blueprint.build name = .error fault.toMeshError := by
  rw [build_eq_resolve hpolygons, h]
  rfl

omit [Std.LawfulEqOrd F] [Std.LawfulEqOrd K] [DecidableEq F] in
/-- What is wrong with a construction is never that it is not closed. -/
theorem build_ne_notClosed (why : String) :
    blueprint.build name ≠ .error (.notClosed why) := by
  rw [build_eq_resolve hpolygons]
  cases blueprint.system.resolve with
  | ok solid => simp [Except.mapError, Except.map]
  | error fault =>
      obtain ⟨face, fault⟩ := fault
      cases fault <;>
        simp [FlagFault.toMeshError, FaceFault.toMeshError, Except.mapError,
          Except.map]

end Build

section Permuting

variable {G L : Type} {R : Incidence G L}
  (hR : R.Permuting)
  {onFace : G → F} {onKey : L → K} {sites : List (K × Point)}
  {flags : List (Flag F K)}
  (hface : Set.InjOn onFace R.faces)
  (hkey : Set.InjOn onKey R.tails)
  (hflags : ∀ f v w, ⟨f, v, w⟩ ∈ flags ↔ R.rename onFace onKey f v w)
include hR hface hkey hflags

theorem system_incidence_of_permuting :
    (system { sites, flags : Blueprint F K }).incidence =
      R.rename onFace onKey := by
  have hdeterminate : Flag.Determinate flags := by
    rintro ⟨f, v, w⟩ hflag ⟨f', v', w'⟩ hflag' hsame htail
    obtain ⟨g, a, b, hab, rfl, rfl, rfl⟩ := (hflags _ _ _).mp hflag
    obtain ⟨g', a', b', hab', rfl, rfl, rfl⟩ := (hflags _ _ _).mp hflag'
    obtain rfl :=
      hface (Incidence.mem_faces hab) (Incidence.mem_faces hab') hsame
    obtain rfl :=
      hkey (Incidence.mem_tails hab) (Incidence.mem_tails hab') htail
    exact congrArg onKey (hR.head_unique hab hab')
  ext f v w
  rw [system_incidence_iff_of_determinate hdeterminate]
  exact hflags f v w

omit hR hface hkey [DecidableEq F] [DecidableEq K] [Std.LawfulEqOrd K] in
theorem exists_flags_of_face {f : G} (hf : f ∈ R.faces) :
    ∃ own, (system { sites, flags : Blueprint F K }).faces[onFace f]? =
      some own := by
  obtain ⟨v, w, hvw⟩ := hf
  have hmem : onFace f ∈ (system { sites, flags : Blueprint F K }).faces :=
    mem_faces_iff.mpr ⟨_, (hflags _ _ _).mpr (Incidence.rename_of hvw), rfl⟩
  exact Option.isSome_iff_exists.mp
    (Std.ExtTreeMap.mem_iff_isSome_getElem?.mp hmem)

omit hR hface hkey [DecidableEq F] [DecidableEq K] [Std.LawfulEqOrd K] in
theorem exists_face_of_flags {face : F} {own : FaceFlags K}
    (hown :
      (system { sites, flags : Blueprint F K }).faces[face]? = some own) :
    ∃ f ∈ R.faces, onFace f = face := by
  obtain ⟨⟨_, x, y⟩, hflag, rfl⟩ :=
    mem_faces_iff.mp (mem_of_getElem?_eq_some hown)
  obtain ⟨f, v, w, hvw, hf, -, -⟩ := (hflags _ _ _).mp hflag
  exact ⟨f, Incidence.mem_faces hvw, hf⟩

variable (hregistered : ∀ v ∈ R.tails, onKey v ∈ sites.map Prod.fst)
include hregistered

theorem sound_flags_iff {f : G}
    (hf : f ∈ R.faces)
    {own : FaceFlags K}
    (hown :
      (system { sites, flags : Blueprint F K }).faces[onFace f]? =
        some own) :
    (system { sites, flags : Blueprint F K }).Sound own ↔
      Incidence.IsCycle (R f) :=
  FlagSystem.sound_iff_isCycle hR hface hkey
    (system_incidence_of_permuting hR hface hkey hflags) hown
    (fun v hv => mem_positions_iff.mpr (hregistered v hv)) hf

variable [ToString F] [ToString K] (name : String)

/-- A construction whose flags permute the vertices of every face succeeds
when every face is one cycle. -/
theorem exists_build_iff :
    (∃ mesh, build { sites, flags : Blueprint F K } name = .ok mesh) ↔
      ∀ f ∈ R.faces, Incidence.IsCycle (R f) := by
  have hresolve :
      (∃ mesh, build { sites, flags : Blueprint F K } name = .ok mesh) ↔
      ∃ solid,
        (system { sites, flags : Blueprint F K }).resolve = .ok solid := by
    rw [build_eq_resolve rfl]
    cases (system { sites, flags : Blueprint F K }).resolve <;>
      simp [Except.mapError, Except.map]
  rw [hresolve, FlagSystem.exists_resolve_eq_ok_iff]
  constructor
  · intro h f hf
    obtain ⟨own, hown⟩ := exists_flags_of_face hflags hf
    exact (sound_flags_iff hR hface hkey hflags hregistered hf hown).mp
      (h _ _ hown)
  · intro h face own hown
    obtain ⟨f, hf, rfl⟩ := exists_face_of_flags hflags hown
    exact (sound_flags_iff hR hface hkey hflags hregistered hf hown).mpr
      (h f hf)

/-- A construction with a face that is not one cycle fails at the first such
face, whose walk comes back too early. -/
theorem exists_fault (hbad : ¬ ∀ f ∈ R.faces, Incidence.IsCycle (R f)) :
    ∃ f ∈ R.faces, ¬ Incidence.IsCycle (R f) ∧
      (∀ g ∈ R.faces, compare (onFace g) (onFace f) = .lt →
        Incidence.IsCycle (R g)) ∧
      ∃ steps < {v | ∃ w, R f v w}.ncard, build { sites, flags } name =
        .error (FaceFault.toMeshError (toString (onFace f))
          (.closedEarly steps {v | ∃ w, R f v w}.ncard : FaceFault K)) := by
  have hsound :=
    fun {f} => sound_flags_iff hR hface hkey hflags hregistered (f := f)
  obtain ⟨fault, hfault⟩ : ∃ fault,
      (system { sites, flags : Blueprint F K }).resolve = .error fault := by
    cases hresolve : (system { sites, flags : Blueprint F K }).resolve with
    | error fault => exact ⟨fault, rfl⟩
    | ok solid =>
        refine absurd (fun f hf => ?_) hbad
        obtain ⟨own, hown⟩ := exists_flags_of_face hflags hf
        exact (hsound hf hown).mp
          (FlagSystem.exists_resolve_eq_ok_iff.mp ⟨solid, hresolve⟩ _ _ hown)
  obtain ⟨face, own, hown, hwalk, hbefore⟩ :=
    FlagSystem.resolve_eq_error_iff.mp hfault
  obtain ⟨f, hf, rfl⟩ := exists_face_of_flags hflags hown
  refine ⟨f, hf, fun hcycle => ?_, fun g hg hlt => ?_, ?_⟩
  · have hok : ∃ tails, (system { sites, flags : Blueprint F K }).walk
        (onFace f) own = .ok tails :=
      FlagSystem.exists_walk_eq_ok_iff.mpr ((hsound hf hown).mpr hcycle)
    simp [hwalk] at hok
  · obtain ⟨own', hown'⟩ := exists_flags_of_face hflags hg
    exact (hsound hg hown').mp (hbefore _ _ hown' hlt)
  · obtain ⟨steps, hsteps, rfl⟩ :=
      FlagSystem.closedEarly_of_walk hR hface hkey
        (system_incidence_of_permuting hR hface hkey hflags) hown
        (fun v hv => mem_positions_iff.mpr (hregistered v hv)) hf hwalk
    exact ⟨steps, hsteps, build_eq_error rfl name hfault⟩

end Permuting
end Blueprint
end Polyhedra
