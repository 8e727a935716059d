import Mathlib
import Polyhedra.Flag.Blueprint
import Polyhedra.Proofs.Flag.Key
import Polyhedra.Proofs.Flag.Resolution
import Polyhedra.Proofs.Incidence.Cycle
import Polyhedra.Proofs.Surface.Count

/-!
# Building a construction

The flags of a blueprint and its polygons are an incidence.  When this
incidence is cyclic and the keys in it are registered, the blueprint can be
built, and the incidence of the mesh is the one of the blueprint with every
key replaced by its rank.  So whatever is known about the flags that an
operator declares holds for the faces that it returns.
-/

namespace Polyhedra

/-- No two of the flags lead from one tail of one face to different heads. -/
def Flag.Determinate {F K : Type} (flags : List (Flag F K)) : Prop :=
  ∀ flag ∈ flags, ∀ other ∈ flags, flag.face = other.face →
    flag.tail = other.tail → flag.head = other.head

namespace FlagSystem

variable {F K : Type} [Ord F] [Ord K] [Std.TransOrd F]

/-- The number of declared faces below a face. -/
def faceRank (system : FlagSystem F K) (face : F) : ℕ :=
  system.faces.keys.countP fun other => compare other face = .lt

section Places

variable [Std.LawfulEqOrd F]

theorem faceRank_eq_iff (system : FlagSystem F K) {face : F}
    (hface : face ∈ system.faces)
    {i : ℕ} :
    system.faceRank face = i ↔ system.faces.keys[i]? = some face :=
  countP_lt_eq_iff Std.ExtTreeMap.ordered_keys
    (Std.ExtTreeMap.mem_keys.mpr hface)

theorem faceRank_lt (system : FlagSystem F K) {face : F}
    (hface : face ∈ system.faces) :
    system.faceRank face < system.faceCount := by
  have hget := (system.faceRank_eq_iff hface).mp rfl
  have hlt := (List.getElem?_eq_some_iff.mp hget).1
  simpa [faceCount] using hlt

theorem faceRank_injOn (system : FlagSystem F K) :
    Set.InjOn system.faceRank {face | face ∈ system.faces} := by
  intro a ha b hb heq
  have hget := (system.faceRank_eq_iff ha).mp heq
  exact Option.some.inj
    (hget.symm.trans ((system.faceRank_eq_iff hb).mp rfl))

theorem faceRank_eq_ncard (system : FlagSystem F K) (face : F) :
    system.faceRank face =
      {other | other ∈ system.faces ∧ compare other face = .lt}.ncard := by
  classical
  have hkeys : {other | other ∈ system.faces ∧ compare other face = .lt} =
      (system.faces.keys.filter fun other => compare other face =
        .lt).toFinset := by
    ext other
    simp
  rw [hkeys, Set.ncard_coe_finset, List.toFinset_card_of_nodup, faceRank,
    List.countP_eq_length_filter]
  exact Std.ExtTreeMap.nodup_keys.filter _

end Places

variable [Std.TransOrd K]

/-- The declared flags. -/
def incidence (system : FlagSystem F K) : Incidence F K :=
  fun f v w => system.head? f v = some w

theorem incidence_iff {system : FlagSystem F K} {f : F} {v w : K} :
    system.incidence f v w ↔
      ∃ flags, system.faces[f]? = some flags ∧ flags[v]? = some w := by
  unfold incidence head?
  rw [Option.bind_eq_some_iff]

theorem incidence_of_getElem? {system : FlagSystem F K} {f : F}
    {flags : FaceFlags K} (hflags : system.faces[f]? = some flags)
    {v w : K} :
    system.incidence f v w ↔ flags[v]? = some w := by
  rw [incidence_iff, hflags]
  simp

/-- The edges of a listed face are the flags of the face under their
ranks. -/
theorem ListsFace.mem_edges_iff {system : FlagSystem F K} {key : F}
    {face : Face} (h : system.ListsFace key face)
    {v w : ℕ} :
    (v, w) ∈ face.edges ↔
      ∃ a b, system.incidence key a b ∧ system.rank a = v ∧
        system.rank b = w := by
  obtain ⟨flags, tails, hflags, hcycle, -, rfl, -⟩ := h
  have hsteps : (v, w) ∈ Face.edges (tails.map system.rank) ↔
      ∃ a b, (a, b) ∈ Face.steps tails ∧ system.rank a = v ∧
        system.rank b = w := by
    rw [Face.edges_eq_steps, Face.steps_map]
    simp
  rw [hsteps]
  refine exists_congr fun a => exists_congr fun b => and_congr_left fun _ =>
    ?_
  rw [incidence_of_getElem? hflags]
  exact hcycle.mem_steps_iff

/-- A face whose flags are the steps of a list of keys lists them from some
key on. -/
theorem ListsFace.isRotated_of_steps {system : FlagSystem F K} {f : F}
    {face : Face}
    (h : system.ListsFace f face)
    {keys : List K}
    (hne : keys ≠ [])
    (hnodup : keys.Nodup)
    (hsteps : ∀ v w, system.incidence f v w ↔ (v, w) ∈ Face.steps keys) :
    face ~r keys.map system.rank := by
  obtain ⟨flags, tails, hflags, hcycle, -, rfl, -⟩ := h
  have hflag : ∀ {v w}, flags[v]? = some w ↔ (v, w) ∈ Face.steps keys := by
    intro v w
    rw [← hsteps, incidence_of_getElem? hflags]
  have hkeys : flags.IsCycle keys := by
    refine ⟨hne, hnodup, fun key => ?_, fun tail head => hflag.mpr⟩
    rw [Std.ExtTreeMap.mem_iff_isSome_getElem?, Option.isSome_iff_exists]
    simp only [hflag]
    exact ⟨Face.exists_step_from,
      fun ⟨_, hstep⟩ => (Face.mem_of_step hstep).1⟩
  exact (hcycle.isRotated hkeys).map _

section Vertices

variable [Std.LawfulEqOrd K]

/-- When every key is registered, every face is declared by some flag, and
the flags are cyclic, the flags of every face are sound. -/
theorem sound_of_cyclic {system : FlagSystem F K}
    (hcyclic : system.incidence.Cyclic)
    (hregistered : ∀ v ∈ system.incidence.tails, v ∈ system.positions)
    (hflagged : ∀ f ∈ system.faces, f ∈ system.incidence.faces)
    {f : F} {flags : FaceFlags K}
    (hflags : system.faces[f]? = some flags) :
    system.Sound flags := by
  have hinc : ∀ {v w}, system.incidence f v w ↔ flags[v]? = some w :=
    incidence_of_getElem? hflags
  constructor
  · intro tail head hflag
    have h := hinc.mpr hflag
    exact ⟨hregistered tail (Incidence.mem_tails h),
      hregistered head (hcyclic.head_mem_tails h)⟩
  · have hf : f ∈ system.faces :=
      Std.ExtTreeMap.mem_iff_isSome_getElem?.mpr (by simp [hflags])
    obtain ⟨v, w, h⟩ := hflagged f hf
    have hfinite : {x | ∃ y, system.incidence f x y}.Finite := by
      apply (List.finite_toSet flags.keys).subset
      rintro x ⟨y, hxy⟩
      have hmem : x ∈ flags :=
        Std.ExtTreeMap.mem_iff_isSome_getElem?.mpr (by simp [hinc.mp hxy])
      exact Std.ExtTreeMap.mem_keys.mpr hmem
    obtain ⟨tails, hhead, hnodup, hmem, hsteps⟩ :=
      hcyclic.exists_cycle hfinite h
    refine ⟨tails, ?_, hnodup, ?_,
      fun tail head hstep => hinc.mp (hsteps tail head hstep)⟩
    · rintro rfl
      simp at hhead
    · intro key
      rw [hmem, Std.ExtTreeMap.mem_iff_isSome_getElem?,
        Option.isSome_iff_exists]
      simp only [hinc]

theorem Lists.length_vertices {system : FlagSystem F K} {solid : Solid}
    (h : system.Lists solid) :
    solid.vertices.length = system.vertexCount := by
  obtain ⟨keys, hascending, hmem, hlist⟩ := h.vertices
  have hkeys : keys = system.positions.keys :=
    eq_of_ascending hascending Std.ExtTreeMap.ordered_keys
      fun key => (hmem key).trans Std.ExtTreeMap.mem_keys.symm
  have hlength := congrArg List.length hlist
  simpa [hkeys, vertexCount] using hlength

theorem Lists.getElem?_vertices {system : FlagSystem F K} {solid : Solid}
    (h : system.Lists solid)
    {v : ℕ} {key : K}
    (hkey : system.positions.keys[v]? = some key) :
    solid.vertices[v]? = system.position? key := by
  obtain ⟨keys, hascending, hmem, hlist⟩ := h.vertices
  obtain rfl : keys = system.positions.keys :=
    eq_of_ascending hascending Std.ExtTreeMap.ordered_keys
      fun key => (hmem key).trans Std.ExtTreeMap.mem_keys.symm
  have hget := congrArg (fun list => list[v]?) hlist
  simp only [List.getElem?_map, hkey, Option.map_some] at hget
  obtain ⟨p, hp, hposition⟩ := Option.map_eq_some_iff.mp hget
  rw [hp, hposition]

end Vertices

section Faces

variable [Std.LawfulEqOrd F]

/-- The keys of the faces in the order in which a solid lists them. -/
theorem Lists.faces_forall₂ {system : FlagSystem F K} {solid : Solid}
    (h : system.Lists solid) :
    List.Forall₂ system.ListsFace system.faces.keys solid.faces := by
  obtain ⟨keys, hascending, hmem, hlist⟩ := h.faces
  have hkeys : keys = system.faces.keys :=
    eq_of_ascending hascending Std.ExtTreeMap.ordered_keys
      fun key => (hmem key).trans Std.ExtTreeMap.mem_keys.symm
  exact hkeys ▸ hlist

theorem Lists.length_faces {system : FlagSystem F K} {solid : Solid}
    (h : system.Lists solid) : solid.faces.length = system.faceCount := by
  have hlength := h.faces_forall₂.length_eq
  simpa [faceCount] using hlength.symm

theorem Lists.exists_listsFace {system : FlagSystem F K} {solid : Solid}
    (h : system.Lists solid)
    {i : ℕ} {f : F}
    (hf : system.faces.keys[i]? = some f) :
    ∃ face, solid.faces[i]? = some face ∧ system.ListsFace f face := by
  have hlist := h.faces_forall₂
  obtain ⟨hlt, rfl⟩ := List.getElem?_eq_some_iff.mp hf
  have hlt' : i < solid.faces.length := hlist.length_eq ▸ hlt
  exact ⟨_, List.getElem?_eq_getElem hlt', hlist.get hlt hlt'⟩

/-- The incidence of a solid is the incidence of the flags under ranks. -/
theorem Lists.incidence_eq {system : FlagSystem F K} {solid : Solid}
    (h : system.Lists solid) :
    solid.faces.incidence =
      system.incidence.rename system.faceRank system.rank := by
  have hlist := h.faces_forall₂
  ext i v w
  constructor
  · rintro ⟨face, hface, hedge⟩
    obtain ⟨hlt, rfl⟩ := List.getElem?_eq_some_iff.mp hface
    have hlt' : i < system.faces.keys.length := hlist.length_eq ▸ hlt
    have hkey : system.faces.keys[i] ∈ system.faces :=
      Std.ExtTreeMap.mem_keys.mp (List.getElem_mem hlt')
    have hlists : system.ListsFace system.faces.keys[i] solid.faces[i] :=
      hlist.get hlt' hlt
    obtain ⟨a, b, hab, rfl, rfl⟩ := hlists.mem_edges_iff.mp hedge
    exact ⟨_, a, b, hab, (system.faceRank_eq_iff hkey).mpr (by simp), rfl,
      rfl⟩
  · rintro ⟨f, a, b, hab, rfl, rfl, rfl⟩
    obtain ⟨flags, hflags, -⟩ := incidence_iff.mp hab
    have hf : f ∈ system.faces :=
      Std.ExtTreeMap.mem_iff_isSome_getElem?.mpr (by simp [hflags])
    have hkey := (system.faceRank_eq_iff hf).mp rfl
    obtain ⟨hlt, heq⟩ := List.getElem?_eq_some_iff.mp hkey
    have hlt' : system.faceRank f < solid.faces.length :=
      hlist.length_eq ▸ hlt
    have hlists : system.ListsFace system.faces.keys[system.faceRank f]
        solid.faces[system.faceRank f] := hlist.get hlt hlt'
    rw [heq] at hlists
    exact ⟨_, List.getElem?_eq_getElem hlt',
      hlists.mem_edges_iff.mpr ⟨a, b, hab, rfl, rfl⟩⟩

theorem Lists.exists_key {system : FlagSystem F K} {solid : Solid}
    (h : system.Lists solid)
    {face : Face}
    (hface : face ∈ solid.faces) :
    ∃ f ∈ system.faces, system.ListsFace f face := by
  obtain ⟨i, hi⟩ := List.mem_iff_getElem?.mp hface
  obtain ⟨hlt, rfl⟩ := List.getElem?_eq_some_iff.mp hi
  have hlist := h.faces_forall₂
  have hlt' : i < system.faces.keys.length := hlist.length_eq ▸ hlt
  exact ⟨_, Std.ExtTreeMap.mem_keys.mp (List.getElem_mem hlt'),
    hlist.get hlt' hlt⟩

theorem Lists.nodup_faces {system : FlagSystem F K} {solid : Solid}
    (h : system.Lists solid) :
    ∀ face ∈ solid.faces, face.Nodup ∧ face ≠ [] := by
  intro face hface
  obtain ⟨f, -, flags, tails, -, hcycle, -, heq, hnodup⟩ :=
    h.exists_key hface
  refine ⟨hnodup, ?_⟩
  rw [heq]
  simpa using hcycle.ne_nil

/-- A walked face starts at its smallest index. -/
theorem Lists.head_le {system : FlagSystem F K} {solid : Solid}
    (h : system.Lists solid) :
    ∀ face ∈ solid.faces, ∀ first ∈ face.head?, ∀ v ∈ face, first ≤ v := by
  intro face hface
  obtain ⟨f, -, flags, tails, -, hcycle, hsmallest, heq, -⟩ :=
    h.exists_key hface
  rw [heq, List.head?_map]
  intro first hfirst v hv
  obtain ⟨head, hhead, rfl⟩ := Option.map_eq_some_iff.mp hfirst
  obtain ⟨tail, htail, rfl⟩ := List.mem_map.mp hv
  exact system.rank_le
    (hsmallest head hhead tail ((hcycle.mem_iff tail).mp htail))

end Faces

/-! ## Systems of declarations -/

theorem mem_positions_declare [Std.LawfulEqOrd K] {system : FlagSystem F K}
    {declaration : Declaration F K} {key : K} :
    key ∈ (system.declare declaration).positions ↔
      key ∈ system.positions ∨
      ∃ position, .vertex key position = declaration := by
  cases declaration with
  | vertex other position =>
      simp [declare, setVertex, or_comm, eq_comm (a := key)]
  | flag flag => simp [declare, setFlag]

theorem mem_positions_ofDeclarations [Std.LawfulEqOrd K]
    {declarations : List (Declaration F K)} {key : K} :
    key ∈ (ofDeclarations declarations : FlagSystem F K).positions ↔
      ∃ position, .vertex key position ∈ declarations := by
  unfold ofDeclarations
  induction declarations using List.reverseRecOn with
  | nil => exact iff_of_false Std.ExtTreeMap.not_mem_empty (by simp)
  | append_singleton declarations declaration ih =>
      rw [List.foldl_append, List.foldl_cons, List.foldl_nil,
        mem_positions_declare, ih, ← exists_or]
      simp

theorem mem_faces_declare [Std.LawfulEqOrd F] {system : FlagSystem F K}
    {declaration : Declaration F K} {face : F} :
    face ∈ (system.declare declaration).faces ↔
      face ∈ system.faces ∨
      ∃ flag, .flag flag = declaration ∧ flag.face = face := by
  cases declaration with
  | vertex key position => simp [declare, setVertex]
  | flag flag => simp [declare, setFlag, or_comm]

theorem mem_faces_ofDeclarations [Std.LawfulEqOrd F]
    {declarations : List (Declaration F K)} {face : F} :
    face ∈ (ofDeclarations declarations : FlagSystem F K).faces ↔
      ∃ flag, .flag flag ∈ declarations ∧ flag.face = face := by
  unfold ofDeclarations
  induction declarations using List.reverseRecOn with
  | nil => exact iff_of_false Std.ExtTreeMap.not_mem_empty (by simp)
  | append_singleton declarations declaration ih =>
      rw [List.foldl_append, List.foldl_cons, List.foldl_nil,
        mem_faces_declare, ih, ← exists_or]
      simp [or_and_right]

theorem positions_foldl_setFlag (flags : List (Flag F K))
    (system : FlagSystem F K) :
    (flags.foldl setFlag system).positions = system.positions := by
  induction flags generalizing system with
  | nil => rfl
  | cons flag flags ih =>
      rw [List.foldl_cons, ih]
      rfl

variable [Std.LawfulEqOrd F] [Std.LawfulEqOrd K] [DecidableEq F]
  [DecidableEq K]

/-- Flags that agree on the head of every face and tail are the flags of
their system. -/
theorem head?_foldl_setFlag {flags : List (Flag F K)}
    {system : FlagSystem F K}
    (hagree : Flag.Determinate flags)
    (hsystem : ∀ flag ∈ flags, system.head? flag.face flag.tail = none ∨
      system.head? flag.face flag.tail = some flag.head)
    {f : F} {v w : K} :
    (flags.foldl setFlag system).head? f v = some w ↔
      ⟨f, v, w⟩ ∈ flags ∨ system.head? f v = some w := by
  induction flags generalizing system with
  | nil => simp
  | cons flag flags ih =>
      have hflags : ∀ other ∈ flags, flag.face = other.face →
          flag.tail = other.tail → flag.head = other.head :=
        fun other hother => hagree flag (by simp) other (by simp [hother])
      have hfirst := hsystem flag (by simp)
      rw [List.foldl_cons, ih]
      · rw [head?_setFlag, List.mem_cons]
        split
        next heq =>
            obtain ⟨rfl, rfl⟩ := heq
            obtain ⟨face, tail, head⟩ := flag
            simp only [Flag.mk.injEq, true_and, Option.some.injEq]
              at hfirst ⊢
            rcases hfirst with hnone | hsome
            · rw [hnone]
              simp only [reduceCtorEq, or_false]
              exact ⟨fun h => h.elim .inr fun h => .inl h.symm,
                fun h => h.elim (fun h => .inr h.symm) .inl⟩
            · rw [hsome, Option.some.injEq]
              tauto
        next hne =>
            have hother : (⟨f, v, w⟩ : Flag F K) ≠ flag := by
              rintro rfl
              exact hne ⟨rfl, rfl⟩
            simp [hother]
      · exact fun one hone other hother =>
          hagree one (by simp [hone]) other (by simp [hother])
      · intro other hother
        rw [head?_setFlag]
        split
        next heq =>
            exact .inr (congrArg some (hflags other hother heq.1 heq.2))
        next => exact hsystem other (by simp [hother])

end FlagSystem

namespace Assembler

variable {F K : Type} [Ord F] [Ord K] [Std.TransOrd K] [ToString K]
  {assembler : Assembler F K} {keys : List K}

theorem addPolygon_eq_ok_iff {extended : Assembler F K} :
    assembler.addPolygon keys = .ok extended ↔
      (∀ key ∈ keys, key ∈ assembler.system.positions) ∧
      extended =
        { assembler with polygons := assembler.polygons.push keys } := by
  have hfind :
      (keys.find? fun key => !assembler.system.positions.contains key) =
        none ↔ ∀ key ∈ keys, key ∈ assembler.system.positions := by
    simp
  rw [← hfind, addPolygon]
  split
  next key hkey => simp [hkey]
  next hnone => simp [hnone, eq_comm]

/-- A polygon is refused for its first key that is not registered. -/
theorem addPolygon_eq_error_iff {error : MeshError} :
    assembler.addPolygon keys = .error error ↔
      ∃ firsts key rest, keys = firsts ++ key :: rest ∧
        (∀ first ∈ firsts, first ∈ assembler.system.positions) ∧
        key ∉ assembler.system.positions ∧
        error = .undefinedVertex (toString key) := by
  have hmissing : ∀ key, (!assembler.system.positions.contains key) = true ↔
      key ∉ assembler.system.positions := fun key => by
    rw [Bool.not_eq_true', ← Bool.not_eq_true,
      Std.ExtTreeMap.contains_iff_mem]
  rw [addPolygon]
  constructor
  · intro h
    split at h
    next key hkey =>
        obtain ⟨hnot, firsts, rest, rfl, hfirsts⟩ :=
          List.find?_eq_some_iff_append.mp hkey
        refine ⟨firsts, key, rest, rfl,
          fun first hfirst => ?_, (hmissing key).mp hnot, ?_⟩
        · simpa using hfirsts first hfirst
        · exact (Except.error.inj h).symm
    next => cases h
  · rintro ⟨firsts, key, rest, rfl, hfirsts, hkey, rfl⟩
    have hfind : ((firsts ++ key :: rest).find? fun key =>
        !assembler.system.positions.contains key) = some key := by
      rw [List.find?_eq_some_iff_append]
      refine ⟨(hmissing key).mpr hkey, firsts, rest, rfl,
        fun first hfirst => ?_⟩
      simpa using hfirsts first hfirst
    rw [hfind]

theorem resolve_eq_ok_iff [Std.TransOrd F] [DecidableEq K] [ToString F]
    {name : String} {out : Mesh} :
    assembler.resolve name = .ok out ↔
      ∃ solid, assembler.system.resolve = .ok solid ∧
        out = Solid.named ⟨solid.vertices, solid.faces ++
          assembler.polygons.toList.map (Face.ofKeys assembler.system.ranks)⟩
        name := by
  simp only [resolve, solid, Except.bind_eq_ok_iff,
    Except.mapError_eq_ok_iff]
  constructor
  · rintro ⟨_, ⟨solid, hsolid, hwhole⟩, hout⟩
    obtain rfl := Except.ok.inj hwhole
    exact ⟨solid, hsolid, (Except.ok.inj hout).symm⟩
  · rintro ⟨solid, hsolid, rfl⟩
    exact ⟨_, ⟨solid, hsolid, rfl⟩, rfl⟩

end Assembler

namespace Blueprint

variable {F K : Type} {blueprint : Blueprint F K}

/-- The flags and the polygons of a blueprint; a polygon is named by its
place. -/
def shape (blueprint : Blueprint F K) : Incidence (F ⊕ ℕ) K
  | .inl face, v, w => ⟨face, v, w⟩ ∈ blueprint.flags
  | .inr j, v, w =>
      ∃ keys, blueprint.polygons[j]? = some keys ∧ (v, w) ∈ Face.steps keys

/-! ## Constructions under other keys -/

/-- The flags of a construction under other keys. -/
theorem mem_flags_relabel_iff {G L : Type} {R : Incidence G L}
    {onFace : G → F} {onKey : L → K} {other : Blueprint G L}
    (hflags : ∀ f v w, ⟨f, v, w⟩ ∈ other.flags ↔ R f v w)
    (f : F) (v w : K) :
    ⟨f, v, w⟩ ∈ (other.relabel onFace onKey).flags ↔
      R.rename onFace onKey f v w := by
  simp only [relabel, List.mem_map, Incidence.rename]
  constructor
  · rintro ⟨⟨face, tail, head⟩, hflag, heq⟩
    cases heq
    exact ⟨face, tail, head, (hflags face tail head).mp hflag, rfl, rfl, rfl⟩
  · rintro ⟨face, tail, head, h, rfl, rfl, rfl⟩
    exact ⟨_, (hflags face tail head).mpr h, rfl⟩

theorem mem_sites_relabel_iff {G L : Type} (onFace : G → F) {onKey : L → K}
    {other : Blueprint G L} {key : K} :
    key ∈ (other.relabel onFace onKey).sites.map Prod.fst ↔
      key ∈ onKey '' {role | role ∈ other.sites.map Prod.fst} := by
  simp only [relabel, List.map_map, Set.mem_image, List.mem_map,
    Set.mem_ofPred_eq]
  constructor
  · rintro ⟨site, hsite, rfl⟩
    exact ⟨site.1, ⟨site, hsite, rfl⟩, rfl⟩
  · rintro ⟨_, ⟨site, hsite, rfl⟩, rfl⟩
    exact ⟨site, hsite, rfl⟩

theorem shape_eq_rename {G L : Type} {R : Incidence G L} {onFace : G → F}
    {onKey : L → K}
    (hflags :
      ∀ f v w, ⟨f, v, w⟩ ∈ blueprint.flags ↔ R.rename onFace onKey f v w)
    (hpolygons : blueprint.polygons = []) :
    blueprint.shape = R.rename (Sum.inl ∘ onFace) onKey := by
  ext f v w
  cases f with
  | inl f =>
      refine (hflags f v w).trans ?_
      simp [Incidence.rename]
  | inr j => simp [shape, Incidence.rename, hpolygons]

/-! ## Registered keys and declared faces -/

variable [Ord F] [Ord K] [Std.TransOrd F] [Std.TransOrd K]

/-- The index of a face in the mesh: the polygons follow the faces that are
walked. -/
def faceIndex (blueprint : Blueprint F K) : F ⊕ ℕ → ℕ :=
  Sum.elim blueprint.system.faceRank (blueprint.system.faceCount + ·)

theorem system_eq (blueprint : Blueprint F K) :
    blueprint.system =
      blueprint.flags.foldl FlagSystem.setFlag (blueprint.sites.foldl
        (fun system site => system.setVertex site.1 site.2) ∅) := by
  unfold system FlagSystem.ofDeclarations declarations
  rw [List.foldl_append, List.foldl_map, List.foldl_map]
  rfl

omit [Std.TransOrd F] in
theorem foldl_setVertex_faces (sites : List (K × Point))
    (system : FlagSystem F K) :
    (sites.foldl (fun system site => system.setVertex site.1 site.2)
      system).faces = system.faces := by
  induction sites generalizing system with
  | nil => rfl
  | cons site sites ih =>
      rw [List.foldl_cons, ih]
      rfl

section Vertices

variable [Std.LawfulEqOrd K]

/-- The registered keys of a blueprint are the keys of its sites. -/
theorem mem_positions_iff {v : K} :
    v ∈ blueprint.system.positions ↔ v ∈ blueprint.sites.map Prod.fst := by
  rw [system, FlagSystem.mem_positions_ofDeclarations]
  simp [declarations]

theorem mem_positions_of_polygon
    (hsites : ∀ v ∈ blueprint.shape.tails, v ∈ blueprint.sites.map Prod.fst)
    {keys : List K}
    (hkeys : keys ∈ blueprint.polygons)
    {key : K}
    (hkey : key ∈ keys) :
    key ∈ blueprint.system.positions := by
  rw [mem_positions_iff]
  apply hsites
  obtain ⟨j, hj⟩ := List.mem_iff_getElem?.mp hkeys
  obtain ⟨next, hstep⟩ := Face.exists_step_from hkey
  exact ⟨.inr j, next, keys, hj, hstep⟩

theorem injOn_rank
    (hsites :
      ∀ v ∈ blueprint.shape.tails, v ∈ blueprint.sites.map Prod.fst) :
    Set.InjOn blueprint.system.rank blueprint.shape.tails :=
  blueprint.system.rank_injOn.mono fun v hv =>
    mem_positions_iff.mpr (hsites v hv)

/-- Every position comes from a site. -/
theorem mem_sites_of_position? [DecidableEq K] {key : K} {p : Point}
    (h : blueprint.system.position? key = some p) :
    (key, p) ∈ blueprint.sites := by
  have hfold : ∀ (sites : List (K × Point)) (system : FlagSystem F K),
        (sites.foldl (fun system site => system.setVertex site.1 site.2)
          system).position? key = some p →
      (key, p) ∈ sites ∨ system.position? key = some p := by
    intro sites
    induction sites with
    | nil => exact fun _ => .inr
    | cons site sites ih =>
        intro system h
        rcases ih _ h with hmem | hset
        · exact .inl (.tail _ hmem)
        · rw [FlagSystem.position?_setVertex] at hset
          split at hset
          next heq =>
              obtain rfl := heq
              rw [← Option.some.inj hset]
              exact .inl (.head _)
          next => exact .inr hset
  rw [FlagSystem.position?, system_eq, FlagSystem.positions_foldl_setFlag]
    at h
  refine (hfold blueprint.sites ∅ h).resolve_right fun hnone => ?_
  cases hnone

end Vertices

section Faces

variable [Std.LawfulEqOrd F]

theorem mem_faces_iff {f : F} :
    f ∈ blueprint.system.faces ↔
      ∃ flag ∈ blueprint.flags, flag.face = f := by
  rw [system, FlagSystem.mem_faces_ofDeclarations]
  simp [declarations]

theorem mem_faces_of_shape {f : F} {v w : K}
    (h : blueprint.shape (.inl f) v w) :
    f ∈ blueprint.system.faces :=
  mem_faces_iff.mpr ⟨⟨f, v, w⟩, h, rfl⟩

theorem injOn_faceIndex [DecidableEq F] :
    Set.InjOn blueprint.faceIndex blueprint.shape.faces := by
  rintro (f | j) ⟨v, w, h⟩ (g | k) ⟨v', w', h'⟩ heq
  · have hsame : blueprint.system.faceRank f = blueprint.system.faceRank g :=
      heq
    rw [blueprint.system.faceRank_injOn (mem_faces_of_shape h)
      (mem_faces_of_shape h') hsame]
  · have hlt := blueprint.system.faceRank_lt (mem_faces_of_shape h)
    have hsame :
        blueprint.system.faceRank f = blueprint.system.faceCount + k :=
      heq
    omega
  · have hlt := blueprint.system.faceRank_lt (mem_faces_of_shape h')
    have hsame :
        blueprint.system.faceCount + j = blueprint.system.faceRank g :=
      heq
    omega
  · have hsame :
        blueprint.system.faceCount + j = blueprint.system.faceCount + k :=
      heq
    rw [Nat.add_left_cancel hsame]

end Faces

/-! ## The mesh -/

/-- What is known about the mesh of a blueprint. -/
structure Describes (blueprint : Blueprint F K) (mesh : Mesh) : Prop where
  incidence : mesh.faces.incidence =
    blueprint.shape.rename blueprint.faceIndex blueprint.system.rank
  nodup : ∀ face ∈ mesh.faces, face.Nodup ∧ face ≠ []
  vertexCount : mesh.vertexCount = blueprint.system.vertexCount
  position : ∀ key ∈ blueprint.system.positions,
    mesh.vertices[blueprint.system.rank key]? =
      blueprint.system.position? key
  faceCount :
    mesh.faceCount = blueprint.system.faceCount + blueprint.polygons.length
  /-- The faces that are walked start at their smallest index. -/
  head_le : blueprint.polygons = [] →
    ∀ face ∈ mesh.faces, ∀ first ∈ face.head?, ∀ v ∈ face, first ≤ v

/-- The walked faces and after them the polygons, under the ranks of their
keys. -/
def surface (blueprint : Blueprint F K) (walked : Surface) : Surface :=
  walked ++ blueprint.polygons.map (List.map blueprint.system.rank)

omit [Std.TransOrd F] in
/-- Polygons between registered keys are accepted in order. -/
theorem foldlM_addPolygon [ToString K] {polygons : List (List K)}
    {assembler : Assembler F K}
    (hregistered :
      ∀ keys ∈ polygons, ∀ key ∈ keys, key ∈ assembler.system.positions) :
    polygons.foldlM Assembler.addPolygon assembler = .ok
      { assembler with
        polygons := assembler.polygons ++ polygons.toArray } := by
  induction polygons generalizing assembler with
  | nil => simp [pure, Except.pure]
  | cons keys polygons ih =>
      have hadd : assembler.addPolygon keys =
          .ok { assembler with polygons := assembler.polygons.push keys } :=
        Assembler.addPolygon_eq_ok_iff.mpr ⟨hregistered keys (by simp), rfl⟩
      have hrest :=
        @ih { assembler with polygons := assembler.polygons.push keys }
          fun other hother => hregistered other (by simp [hother])
      rw [List.foldlM_cons, hadd]
      refine hrest.trans ?_
      simp [← Array.append_singleton_assoc]

theorem build_eq_ok [Std.LawfulEqOrd K] [DecidableEq K] [ToString F]
    [ToString K] {solid : Solid}
    (hsolid : blueprint.system.resolve = .ok solid)
    (hregistered : ∀ keys ∈ blueprint.polygons,
      ∀ key ∈ keys, key ∈ blueprint.system.positions)
    (name : String) :
    blueprint.build name =
      .ok (Solid.named ⟨solid.vertices, blueprint.surface solid.faces⟩
        name) := by
  have hassembler : blueprint.assembler = .ok
      { system := blueprint.system,
        polygons := blueprint.polygons.toArray } := by
    unfold assembler
    rw [foldlM_addPolygon hregistered]
    simp
  have hpolygons :
      blueprint.polygons.map (Face.ofKeys blueprint.system.ranks) =
        blueprint.polygons.map (List.map blueprint.system.rank) :=
    List.map_congr_left fun keys hkeys =>
      blueprint.system.ofKeys_ranks (hregistered keys hkeys)
  unfold build
  rw [hassembler]
  change Assembler.resolve _ name = _
  unfold Assembler.resolve Assembler.solid
  rw [hsolid]
  simp only [surface, ← hpolygons]
  rfl

variable [Std.LawfulEqOrd F] [Std.LawfulEqOrd K]

theorem nodup_surface {solid : Solid}
    (hlists : blueprint.system.Lists solid)
    (hregistered : ∀ keys ∈ blueprint.polygons,
      ∀ key ∈ keys, key ∈ blueprint.system.positions)
    (hpolygons : ∀ keys ∈ blueprint.polygons, keys.Nodup ∧ keys ≠ [])
    {face : Face}
    (hface : face ∈ blueprint.surface solid.faces) :
    face.Nodup ∧ face ≠ [] := by
  rcases List.mem_append.mp hface with hwalked | hpolygon
  · exact hlists.nodup_faces face hwalked
  · obtain ⟨keys, hkeys, rfl⟩ := List.mem_map.mp hpolygon
    obtain ⟨hnodup, hne⟩ := hpolygons keys hkeys
    refine ⟨hnodup.map_on ?_, by simpa using hne⟩
    exact fun a ha b hb heq => blueprint.system.rank_injOn
      (hregistered keys hkeys a ha) (hregistered keys hkeys b hb) heq

variable [DecidableEq F]

namespace Describes

variable {mesh : Mesh}

/-- A mesh is closed when its blueprint is. -/
theorem closed_iff
    (h : blueprint.Describes mesh)
    (hshape : blueprint.shape.Cyclic)
    (hsites :
      ∀ v ∈ blueprint.shape.tails, v ∈ blueprint.sites.map Prod.fst) :
    mesh.faces.checkClosed = .ok () ↔ blueprint.shape.Closed := by
  rw [Surface.checkClosed_iff_closed fun face hface =>
      (h.nodup face hface).1,
    and_iff_left fun face hface => (h.nodup face hface).2, h.incidence]
  exact hshape.closed_rename_iff injOn_faceIndex (injOn_rank hsites)

theorem doubleEuler_eq
    (h : blueprint.Describes mesh)
    (hshape : blueprint.shape.Cyclic)
    (hsites :
      ∀ v ∈ blueprint.shape.tails, v ∈ blueprint.sites.map Prod.fst) :
    mesh.faces.incidence.doubleEuler = blueprint.shape.doubleEuler := by
  rw [h.incidence]
  exact hshape.doubleEuler_rename injOn_faceIndex (injOn_rank hsites)

/-- A polyhedral blueprint that registers no key without use has a polyhedral
mesh. -/
theorem polyhedral
    (h : blueprint.Describes mesh)
    (hshape : blueprint.shape.Polyhedral)
    (hsites :
      ∀ v, v ∈ blueprint.sites.map Prod.fst ↔ v ∈ blueprint.shape.tails) :
    mesh.Polyhedral := by
  have hinjective := injOn_rank fun v hv => (hsites v).mpr hv
  apply Surface.polyhedral_iff.mpr
  refine ⟨?_, h.nodup, ?_⟩
  · rw [h.incidence]
    exact hshape.rename injOn_faceIndex hinjective
  · rw [h.incidence, Incidence.tails_rename, h.vertexCount]
    ext v
    constructor
    · rintro ⟨key, hkey, rfl⟩
      exact blueprint.system.rank_lt
        (mem_positions_iff.mpr ((hsites key).mpr hkey))
    · intro hv
      obtain ⟨key, hkey, hrank⟩ := blueprint.system.exists_rank_eq hv
      exact ⟨key, (hsites key).mp (mem_positions_iff.mp hkey), hrank⟩

end Describes

variable [DecidableEq K]

/-- Flags that agree on heads are the incidence of the system of the
blueprint. -/
theorem system_incidence_iff_of_determinate
    (hflags : Flag.Determinate blueprint.flags)
    {f : F} {v w : K} :
    blueprint.system.incidence f v w ↔ ⟨f, v, w⟩ ∈ blueprint.flags := by
  have hhead : ∀ (f : F) (v : K), (blueprint.sites.foldl
        (fun system site => system.setVertex site.1 site.2) ∅ :
      FlagSystem F K).head? f v = none := by
    intro f v
    unfold FlagSystem.head?
    rw [foldl_setVertex_faces]
    rfl
  unfold FlagSystem.incidence
  rw [system_eq, FlagSystem.head?_foldl_setFlag hflags, hhead]
  · simp
  · exact fun flag _ => .inl (hhead flag.face flag.tail)

theorem system_incidence_iff
    (hshape : blueprint.shape.Cyclic)
    {f : F} {v w : K} :
    blueprint.system.incidence f v w ↔ ⟨f, v, w⟩ ∈ blueprint.flags := by
  apply system_incidence_iff_of_determinate
  rintro ⟨f, v, w⟩ hflag ⟨f', v', w'⟩ hother hface htail
  obtain ⟨rfl, rfl⟩ : f = f' ∧ v = v' := ⟨hface, htail⟩
  exact hshape.head_unique (R := blueprint.shape) (f := .inl f) hflag hother

theorem system_cyclic (hshape : blueprint.shape.Cyclic) :
    blueprint.system.incidence.Cyclic := by
  have hinc : blueprint.system.incidence =
      fun f => blueprint.shape (.inl f) := by
    ext f v w
    exact system_incidence_iff hshape
  rw [hinc]
  exact .of_isCycle fun f _ _ _ => hshape.isCycle (.inl f)

/-- The system of a cyclic blueprint with registered keys resolves. -/
theorem exists_resolve
    (hshape : blueprint.shape.Cyclic)
    (hsites :
      ∀ v ∈ blueprint.shape.tails, v ∈ blueprint.sites.map Prod.fst) :
    ∃ solid, blueprint.system.resolve = .ok solid := by
  rw [FlagSystem.exists_resolve_eq_ok_iff]
  intro f flags hflags
  apply FlagSystem.sound_of_cyclic (system_cyclic hshape) _ _ hflags
  · rintro v ⟨f, w, h⟩
    rw [mem_positions_iff]
    exact hsites v ⟨.inl f, w, (system_incidence_iff hshape).mp h⟩
  · intro f hf
    obtain ⟨⟨_, v, w⟩, hflag, rfl⟩ := mem_faces_iff.mp hf
    exact ⟨v, w, (system_incidence_iff hshape).mpr hflag⟩

/-- The flags of the walked faces and of the polygons are those of the
shape. -/
theorem incidence_surface {solid : Solid}
    (hlists : blueprint.system.Lists solid)
    (hshape : blueprint.shape.Cyclic) :
    (blueprint.surface solid.faces).incidence =
      blueprint.shape.rename blueprint.faceIndex blueprint.system.rank := by
  ext i v w
  rw [surface, Surface.incidence_append, hlists.incidence_eq,
    hlists.length_faces]
  constructor
  · rintro (⟨f, a, b, h, rfl, rfl, rfl⟩ | ⟨j, rfl, _, hface, hedge⟩)
    · exact ⟨.inl f, a, b, (system_incidence_iff hshape).mp h, rfl, rfl, rfl⟩
    · rw [List.getElem?_map, Option.map_eq_some_iff] at hface
      obtain ⟨keys, hkeys, rfl⟩ := hface
      rw [Face.edges_eq_steps, Face.steps_map, List.mem_map] at hedge
      obtain ⟨⟨a, b⟩, hstep, heq⟩ := hedge
      cases heq
      exact ⟨.inr j, a, b, ⟨keys, hkeys, hstep⟩, rfl, rfl, rfl⟩
  · rintro ⟨f | j, a, b, h, rfl, rfl, rfl⟩
    · exact .inl
        ⟨f, a, b, (system_incidence_iff hshape).mpr h, rfl, rfl, rfl⟩
    · obtain ⟨keys, hkeys, hstep⟩ := h
      refine .inr ⟨j, rfl, keys.map blueprint.system.rank, ?_, ?_⟩
      · rw [List.getElem?_map, hkeys]
        rfl
      · rw [Face.edges_eq_steps, Face.steps_map]
        exact List.mem_map_of_mem hstep

variable [ToString F] [ToString K]

/-- A cyclic blueprint whose keys are registered can be built, and its flags
and polygons are the faces of the mesh. -/
theorem exists_build
    (hshape : blueprint.shape.Cyclic)
    (hsites : ∀ v ∈ blueprint.shape.tails, v ∈ blueprint.sites.map Prod.fst)
    (hpolygons : ∀ keys ∈ blueprint.polygons, keys.Nodup ∧ keys ≠ [])
    (name : String) :
    ∃ mesh, blueprint.build name = .ok mesh ∧ mesh.name = name ∧
      blueprint.Describes mesh := by
  have hregistered : ∀ keys ∈ blueprint.polygons, ∀ key ∈ keys,
      key ∈ blueprint.system.positions :=
    fun keys hkeys key hkey => mem_positions_of_polygon hsites hkeys hkey
  obtain ⟨solid, hsolid⟩ := exists_resolve hshape hsites
  have hlists := FlagSystem.lists_of_resolve hsolid
  refine ⟨_, build_eq_ok hsolid hregistered name, rfl,
    incidence_surface hlists hshape,
    fun face => nodup_surface hlists hregistered hpolygons, ?_,
      fun key hkey => ?_, ?_, fun hnone face hface => ?_⟩
  · exact (List.size_toArray ..).trans hlists.length_vertices
  · rw [← hlists.getElem?_vertices
      ((blueprint.system.rank_eq_iff hkey).mp rfl)]
    exact List.getElem?_toArray
  · have hlength : (blueprint.surface solid.faces).length =
        blueprint.system.faceCount + blueprint.polygons.length := by
      simp [surface, hlists.length_faces]
    exact hlength
  · have hwalked : blueprint.surface solid.faces = solid.faces := by
      simp [surface, hnone]
    exact hlists.head_le face (hwalked ▸ hface)

/-- A polyhedral blueprint that registers the keys in use can be built, and
the mesh is polyhedral and has the same Euler characteristic. -/
theorem exists_polyhedral
    (hshape : blueprint.shape.Polyhedral)
    (hsites :
      ∀ v, v ∈ blueprint.sites.map Prod.fst ↔ v ∈ blueprint.shape.tails)
    (hpolygons : ∀ keys ∈ blueprint.polygons, keys.Nodup ∧ keys ≠ [])
    (name : String) :
    ∃ mesh, blueprint.build name = .ok mesh ∧ mesh.Polyhedral ∧
      2 * mesh.eulerCharacteristic = blueprint.shape.doubleEuler := by
  have htails :
      ∀ v ∈ blueprint.shape.tails, v ∈ blueprint.sites.map Prod.fst :=
    fun v hv => (hsites v).mpr hv
  obtain ⟨mesh, hbuild, -, hmesh⟩ :=
    exists_build hshape.toCyclic htails hpolygons name
  have hpoly := hmesh.polyhedral hshape hsites
  refine ⟨mesh, hbuild, hpoly, ?_⟩
  rw [hpoly.two_mul_eulerCharacteristic,
    hmesh.doubleEuler_eq hshape.toCyclic htails]

/-- A construction on polyhedral roles gives a polyhedral mesh when its keys
tell the roles apart and exactly the roles in use are registered. -/
theorem exists_polyhedral_of_roles {G L : Type} {R : Incidence G L}
    {onFace : G → F} {onKey : L → K} {sites : List (K × Point)}
    {flags : List (Flag F K)}
    (hR : R.Polyhedral)
    (hface : Set.InjOn onFace R.faces)
    (hkey : Set.InjOn onKey R.tails)
    (hflags : ∀ f v w, ⟨f, v, w⟩ ∈ flags ↔ R.rename onFace onKey f v w)
    (hsites : ∀ v, v ∈ sites.map Prod.fst ↔ v ∈ onKey '' R.tails)
    (name : String) :
    ∃ mesh, Blueprint.build { sites, flags } name = .ok mesh ∧
      mesh.Polyhedral ∧ 2 * mesh.eulerCharacteristic = R.doubleEuler := by
  have hface' : Set.InjOn (Sum.inl ∘ onFace : G → F ⊕ ℕ) R.faces :=
    fun f hf g hg heq => hface hf hg (Sum.inl_injective heq)
  have hshape :
      Blueprint.shape { sites, flags } = R.rename (Sum.inl ∘ onFace) onKey :=
    shape_eq_rename hflags rfl
  rw [← hR.doubleEuler_rename hface' hkey, ← hshape]
  apply exists_polyhedral
  · rw [hshape]
    exact hR.rename hface' hkey
  · intro v
    rw [hshape, Incidence.tails_rename]
    exact hsites v
  · simp

end Blueprint

/-- A construction on polyhedral roles under their labels. -/
theorem Blueprint.exists_polyhedral_buildLabelled
    {R : Incidence FaceRole VertexRole} {sites : List (VertexRole × Point)}
    {flags : List (Flag FaceRole VertexRole)}
    (hR : R.Polyhedral)
    (hflags : ∀ f v w, ⟨f, v, w⟩ ∈ flags ↔ R f v w)
    (hsites : ∀ v, v ∈ sites.map Prod.fst ↔ v ∈ R.tails)
    (name : String) :
    ∃ mesh, buildLabelled { sites, flags } name = .ok mesh ∧
      mesh.Polyhedral ∧ 2 * mesh.eulerCharacteristic = R.doubleEuler := by
  apply exists_polyhedral_of_roles hR FaceRole.label_injective.injOn
    VertexRole.label_injective.injOn (mem_flags_relabel_iff hflags)
  intro key
  have htails : {role | role ∈ sites.map Prod.fst} = R.tails :=
    Set.ext hsites
  rw [← htails]
  exact mem_sites_relabel_iff FaceRole.label

end Polyhedra
