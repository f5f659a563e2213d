import Yafsml.Extdll.StageLaw

/-!
# Loading in dependency order

The early phase, the normal phase and the deferred worker walk the prepared entries one after the
other. The entries whose load they attempt are a prefix of one fixed list, in which every dependency
comes before its dependents.
-/

namespace Yafsml.Extdll

/-! ## The phases -/

/-- The flags of `extdll_t`, by position; attempts are in the order they are made. -/
structure LoadState where
  moduleLoadAttempted : List Nat
  dllModule : List Nat
  initAttempted : List Nat

/-- What Windows answers for the entry at a position: whether its path resolves and `LoadLibraryW`
loads it, whether `GetProcAddress` finds its initializer, and how the worker's waits end. -/
structure Loader where
  loadLibrary : Nat → Bool
  findInitializer : Nat → Bool
  waitForDataReady : Nat → Bool
  delayPassed : Nat → Bool
  cancelled : Nat → Bool

section Phases

variable (loader : Loader) (dlls : List Extdll)

def preloadExtdllOne (s : LoadState) (i : Nat) : LoadState × Bool :=
  if i ∈ s.moduleLoadAttempted then (s, i ∈ s.dllModule)
  else
    let s := { s with moduleLoadAttempted := s.moduleLoadAttempted ++ [i] }
    if loader.loadLibrary i then ({ s with dllModule := i :: s.dllModule }, true) else (s, false)

def loadExtdllOne (s : LoadState) (i : Nat) (dll : Extdll) : LoadState × Bool :=
  match preloadExtdllOne loader s i with
  | (s, false) => (s, false)
  | (s, true) =>
      if i ∈ s.initAttempted then (s, true)
      else
        let s := { s with initAttempted := i :: s.initAttempted }
        (s, dll.initializer.isNone || loader.findInitializer i)

/-- The body of the loop of `extdlls_load_stage`, with `loaded`. -/
def loadStageEntry (stage : Stage) (state : LoadState × Bool) (i : Nat) : LoadState × Bool :=
  match dlls[i]? with
  | some dll =>
      if dll.stage = stage then
        ((loadExtdllOne loader state.1 i dll).1, state.2 && (loadExtdllOne loader state.1 i dll).2)
      else state
  | none => state

def extdllsLoadStage (stage : Stage) (s : LoadState) : LoadState × Bool :=
  (List.range dlls.length).foldl (loadStageEntry loader dlls stage) (s, true)

/-- The worker over the entries at the given positions; a wait that is cut short ends it. -/
def loadDeferredFrom : List Nat → LoadState → LoadState
  | [], s => s
  | i :: rest, s =>
      match dlls[i]? with
      | none => loadDeferredFrom rest s
      | some dll =>
          if !dll.stage.isDeferred then loadDeferredFrom rest s
          else if dll.stage = .dataReady ∧ !loader.waitForDataReady i then s
          else if dll.stage ≠ .dataReady ∧ dll.delayMs ≠ 0 ∧ !loader.delayPassed i then s
          else if loader.cancelled i then s
          else loadDeferredFrom rest (loadExtdllOne loader s i dll).1

def extdllsLoadDeferred (s : LoadState) : LoadState :=
  loadDeferredFrom loader dlls (List.range dlls.length) s

def loadPhases : LoadState :=
  extdllsLoadDeferred loader dlls
    (extdllsLoadStage loader dlls .normal
      (extdllsLoadStage loader dlls .early ⟨[], [], []⟩).1).1

/-! ## The attempts -/

def hasStage (P : Stage → Bool) (i : Nat) : Bool := (stageAt dlls i).any P

def positions (P : Stage → Bool) : List Nat := (List.range dlls.length).filter (hasStage dlls P)

def loadOrder : List Nat :=
  positions dlls (· = .early) ++ positions dlls (· = .normal) ++ positions dlls Stage.isDeferred

variable {loader dlls}

theorem loadExtdllOne_attempts (loader : Loader) (s : LoadState) {i : Nat} (dll : Extdll)
    (fresh : i ∉ s.moduleLoadAttempted) :
    (loadExtdllOne loader s i dll).1.moduleLoadAttempted = s.moduleLoadAttempted ++ [i] := by
  unfold loadExtdllOne preloadExtdllOne
  rw [if_neg fresh]
  cases loader.loadLibrary i with
  | false => rfl
  | true =>
      simp only [if_true]
      split <;> rfl

theorem loadStage_attempts (stage : Stage) (walked : List Nat) (state : LoadState × Bool)
    (nodup : walked.Nodup) (fresh : ∀ i ∈ walked, hasStage dlls (· = stage) i → i ∉ state.1.moduleLoadAttempted) :
    (walked.foldl (loadStageEntry loader dlls stage) state).1.moduleLoadAttempted =
      state.1.moduleLoadAttempted ++ walked.filter (hasStage dlls (· = stage)) := by
  induction walked generalizing state with
  | nil => simp
  | cons i rest ih =>
      obtain ⟨apart, nodup⟩ := List.nodup_cons.mp nodup
      rw [List.foldl_cons]
      by_cases here : hasStage dlls (· = stage) i
      · obtain ⟨dll, located, same⟩ : ∃ dll, dlls[i]? = some dll ∧ dll.stage = stage := by
          simpa [hasStage, stageAt, Option.any_eq_true] using here
        have step : (loadStageEntry loader dlls stage state i).1.moduleLoadAttempted =
            state.1.moduleLoadAttempted ++ [i] := by
          simp only [loadStageEntry, located, same, if_true]
          exact loadExtdllOne_attempts loader _ dll (fresh i (by simp) here)
        rw [ih _ nodup, step, List.filter_cons_of_pos here, List.append_assoc, List.singleton_append]
        intro j member chosen
        rw [step, List.mem_append, List.mem_singleton, not_or]
        exact ⟨fresh j (by simp [member]) chosen, fun same => apart (same ▸ member)⟩
      · have step : loadStageEntry loader dlls stage state i = state := by
          unfold loadStageEntry
          cases located : dlls[i]? with
          | none => rfl
          | some dll =>
              have other : dll.stage ≠ stage := by simpa [hasStage, stageAt, located] using here
              simp only [other, if_false]
        rw [step, ih _ nodup fun j member => fresh j (by simp [member]),
          List.filter_cons_of_neg here]

theorem extdllsLoadStage_attempts (stage : Stage) {s : LoadState}
    (fresh : ∀ i ∈ positions dlls (· = stage), i ∉ s.moduleLoadAttempted) :
    (extdllsLoadStage loader dlls stage s).1.moduleLoadAttempted =
      s.moduleLoadAttempted ++ positions dlls (· = stage) :=
  loadStage_attempts stage (List.range dlls.length) (s, true) List.nodup_range
    fun i member chosen => fresh i (List.mem_filter.mpr ⟨member, chosen⟩)

theorem loadDeferredFrom_attempts (loader : Loader) (dlls : List Extdll) (walked : List Nat) (s : LoadState) (nodup : walked.Nodup)
    (fresh : ∀ i ∈ walked, hasStage dlls Stage.isDeferred i → i ∉ s.moduleLoadAttempted) :
    (loadDeferredFrom loader dlls walked s).moduleLoadAttempted <+:
      s.moduleLoadAttempted ++ walked.filter (hasStage dlls Stage.isDeferred) := by
  induction walked generalizing s with
  | nil => simp [loadDeferredFrom]
  | cons i rest ih =>
      obtain ⟨apart, nodup⟩ := List.nodup_cons.mp nodup
      have skipped := ih s nodup fun j member => fresh j (by simp [member])
      rw [loadDeferredFrom]
      split
      · rename_i located
        rwa [List.filter_cons_of_neg (by simp [hasStage, stageAt, located])]
      · rename_i dll located
        by_cases late : dll.stage.isDeferred
        · have here : hasStage dlls Stage.isDeferred i := by simp [hasStage, stageAt, located, late]
          have attempted := loadExtdllOne_attempts loader s dll (fresh i (by simp) here)
          rw [List.filter_cons_of_pos here, late]
          simp only [Bool.not_true, Bool.false_eq_true, if_false]
          split
          · exact List.prefix_append _ _
          split
          · exact List.prefix_append _ _
          split
          · exact List.prefix_append _ _
          · have following := ih (loadExtdllOne loader s i dll).1 nodup (by
              intro j member chosen
              rw [attempted, List.mem_append, List.mem_singleton, not_or]
              exact ⟨fresh j (by simp [member]) chosen, fun same => apart (same ▸ member)⟩)
            rwa [attempted, List.append_assoc, List.singleton_append] at following
        · rw [List.filter_cons_of_neg (by simp [hasStage, stageAt, located, late])]
          simpa [late] using skipped

theorem positions_disjoint {P Q : Stage → Bool} (apart : ∀ stage, P stage → ¬ Q stage) {i : Nat}
    (member : i ∈ positions dlls P) : i ∉ positions dlls Q := by
  intro member'
  have chosen := (List.mem_filter.mp member).2
  have chosen' := (List.mem_filter.mp member').2
  unfold hasStage at chosen chosen'
  cases stage : stageAt dlls i with
  | none => simp [stage] at chosen
  | some stage' =>
      rw [stage] at chosen chosen'
      exact apart stage' chosen chosen'

theorem loadPhases_attempts (loader : Loader) (dlls : List Extdll) :
    (loadPhases loader dlls).moduleLoadAttempted <+: loadOrder dlls := by
  have afterEarly : (extdllsLoadStage loader dlls .early ⟨[], [], []⟩).1.moduleLoadAttempted =
      positions dlls (· = .early) := extdllsLoadStage_attempts .early (by simp)
  have afterNormal : (extdllsLoadStage loader dlls .normal
      (extdllsLoadStage loader dlls .early ⟨[], [], []⟩).1).1.moduleLoadAttempted =
        positions dlls (· = .early) ++ positions dlls (· = .normal) := by
    rw [extdllsLoadStage_attempts, afterEarly]
    intro i member
    rw [afterEarly]
    exact positions_disjoint (fun stage => by cases stage <;> decide) member
  have deferred := loadDeferredFrom_attempts loader dlls (List.range dlls.length) (extdllsLoadStage loader dlls .normal
      (extdllsLoadStage loader dlls .early ⟨[], [], []⟩).1).1 List.nodup_range (by
      intro i member chosen
      have here : i ∈ positions dlls Stage.isDeferred := List.mem_filter.mpr ⟨member, chosen⟩
      rw [afterNormal, List.mem_append, not_or]
      exact ⟨positions_disjoint (fun stage => by cases stage <;> decide) here,
        positions_disjoint (fun stage => by cases stage <;> decide) here⟩)
  rwa [afterNormal] at deferred

/-! ## Dependencies come first -/

def phase : Stage → Nat
  | .early => 0
  | .normal => 1
  | .dataReady | .delay => 2

theorem loadOrder_pairwise (dlls : List Extdll) : (loadOrder dlls).Pairwise fun i j => ∀ stage stage',
    stageAt dlls i = some stage → stageAt dlls j = some stage' →
      phase stage < phase stage' ∨ phase stage = phase stage' ∧ i < j := by
  have ranked {P : Stage → Bool} {rank : Nat} (all : ∀ stage, P stage → phase stage = rank) {i : Nat}
      {stage : Stage} (member : i ∈ positions dlls P) (located : stageAt dlls i = some stage) :
      phase stage = rank := by
    have chosen := (List.mem_filter.mp member).2
    rw [hasStage, located] at chosen
    exact all stage chosen
  have within {P : Stage → Bool} {rank : Nat} (all : ∀ stage, P stage → phase stage = rank) :
      (positions dlls P).Pairwise fun i j => ∀ stage stage',
        stageAt dlls i = some stage → stageAt dlls j = some stage' →
          phase stage < phase stage' ∨ phase stage = phase stage' ∧ i < j := by
    refine List.Pairwise.imp_of_mem ?_ (List.pairwise_lt_range.filter _)
    intro i j member member' before stage stage' located located'
    exact .inr ⟨(ranked all member located).trans (ranked all member' located').symm, before⟩
  have early : ∀ stage : Stage, decide (stage = .early) → phase stage = 0 := by
    intro stage
    cases stage <;> decide
  have normal : ∀ stage : Stage, decide (stage = .normal) → phase stage = 1 := by
    intro stage
    cases stage <;> decide
  have deferred : ∀ stage : Stage, stage.isDeferred → phase stage = 2 := by
    intro stage
    cases stage <;> decide
  refine List.pairwise_append.mpr ⟨List.pairwise_append.mpr ⟨within early, within normal, ?_⟩,
    within deferred, ?_⟩
  · intro i member j member' stage stage' located located'
    have := ranked early member located
    have := ranked normal member' located'
    exact .inl (by omega)
  · intro i member j member' stage stage' located located'
    have := ranked deferred member' located'
    rcases List.mem_append.mp member with member | member
    · have := ranked early member located
      exact .inl (by omega)
    · have := ranked normal member located
      exact .inl (by omega)

theorem mem_loadOrder {i : Nat} (inside : i < dlls.length) : i ∈ loadOrder dlls := by
  have there : stageAt dlls i = some dlls[i].stage := by simp [stageAt, inside]
  have member := List.mem_range.mpr inside
  unfold loadOrder positions
  simp only [List.mem_append, List.mem_filter, member, true_and, hasStage, there, Option.any_some]
  cases dlls[i].stage <;> decide

/-- Whatever is attempted comes after all that belongs to an earlier phase, or to an earlier entry of
the same phase. -/
theorem attempted_after {p q : Nat} {stage stage' : Stage} (here : stageAt dlls p = some stage)
    (there : stageAt dlls q = some stage')
    (ahead : phase stage' < phase stage ∨ phase stage' = phase stage ∧ q < p)
    {before later : List Nat}
    (attempted : (loadPhases loader dlls).moduleLoadAttempted = before ++ p :: later) : q ∈ before := by
  obtain ⟨tail, whole⟩ := loadPhases_attempts loader dlls
  rw [attempted, List.append_assoc, List.cons_append] at whole
  have inside : q < dlls.length := by
    obtain ⟨_, located, _⟩ := Option.map_eq_some_iff.mp there
    exact (List.getElem?_eq_some_iff.mp located).1
  have member := mem_loadOrder inside
  have pairwise := loadOrder_pairwise dlls
  rw [← whole] at member pairwise
  rcases List.mem_append.mp member with member | member
  · exact member
  rcases List.mem_cons.mp member with same | member
  · subst same
    rw [here, Option.some.injEq] at there
    subst there
    omega
  · have := (List.pairwise_cons.mp (List.pairwise_append.mp pairwise).2.1).1 q member _ _ here there
    omega

end Phases

section Prepared

variable {dlls prepared : List Extdll}

theorem stage_early_or_normal {stage : Stage} (main : stage.isDeferred = false) :
    stage = .early ∨ stage = .normal := by
  cases stage with
  | early => exact .inl rfl
  | normal => exact .inr rfl
  | dataReady => cases main
  | delay => cases main

theorem stageAt_extdllsPrepare (done : extdllsPrepare dlls = some prepared) {i : Nat}
    (inside : i < (sortedDlls dlls).length) : ∃ stage, stageAt prepared i = some stage := by
  rw [← shape_length (shape_extdllsPrepare done)] at inside
  exact ⟨prepared[i].stage, by rw [stageAt, List.getElem?_eq_getElem inside, Option.map_some]⟩

theorem phase_le_of_depends (done : extdllsPrepare dlls = some prepared) (acyclic : Acyclic dlls)
    {p q : Nat} {stage stage' : Stage} (depends : Depends (sortedDlls dlls) p q)
    (here : stageAt prepared p = some stage)
    (there : stageAt prepared q = some stage') : phase stage' ≤ phase stage := by
  obtain ⟨dll, located, rfl⟩ := Option.map_eq_some_iff.mp here
  obtain ⟨dll', located', rfl⟩ := Option.map_eq_some_iff.mp there
  cases late : dll.stage.isDeferred with
  | true =>
      have last : phase dll.stage = 2 := by
        cases stage : dll.stage with
        | early => cases stage ▸ late
        | normal => cases stage ▸ late
        | dataReady => rfl
        | delay => rfl
      rw [last]
      cases dll'.stage <;> decide
  | false =>
      have ahead : ¬ Behind (sortedDlls dlls) p := by
        rw [← deferredAt_extdllsPrepare done]
        rintro ⟨_, located'', late'⟩
        rw [located, Option.some.injEq] at located''
        rw [← located'', late] at late'
        cases late'
      have main : dll'.stage.isDeferred = false := by
        by_contra late'
        rw [Bool.not_eq_false] at late'
        refine ahead (.earlier depends (depends_sortedDlls_lt acyclic depends) ?_)
        exact (deferredAt_extdllsPrepare done).mp ⟨dll', located', late'⟩
      rcases stage_early_or_normal late with early | normal
      · -- An early entry was early before the sweep, so its dependency was not a normal one.
        obtain rfl : prepared = demote (promote (sortedDlls dlls)) := by
          rcases extdllsPrepare_cases done with ⟨few, _⟩ | ⟨_, swept⟩
          · rw [sortedDlls_eq_of_range (preparedOrder_of_few few)] at depends
            exact absurd depends (not_depends_of_few few)
          · exact swept
        have swept := demote_swept (promote (sortedDlls dlls))
        obtain ⟨promoted, prerequisites⟩ := promote_promoted (sortedDlls dlls)
        have kept {i : Nat} {e : Extdll} (at_i : (demote (promote (sortedDlls dlls)))[i]? = some e)
            (main : e.stage.isDeferred = false) : (promote (sortedDlls dlls))[i]? = some e := by
          rcases swept.entries i with same | ⟨_, _, _, _, late, moved⟩
          · rw [← same, at_i]
          · rw [at_i, Option.some.injEq] at moved
            rw [moved, late] at main
            cases main
        obtain ⟨_, e, at_p, name, member, found⟩ := (depends_congr promoted.shape).mpr depends
        have at_p' := kept located late
        rw [at_p, Option.some.injEq] at at_p'
        subst at_p'
        have unlike := prerequisites p e at_p early name member q found
        rcases stage_early_or_normal main with early' | normal'
        · rw [early, early']
        · exact absurd (by rw [stageAt, kept located' main, Option.map_some, normal']) unlike
      · rcases stage_early_or_normal main with early' | normal'
        · rw [normal, early']
          decide
        · rw [normal, normal']

/-- The law of the load order: every dependency is attempted before its dependent, and what rides
along with a dependency waits for nothing else. -/
structure DependenciesFirst (dlls prepared : List Extdll) (loader : Loader) : Prop where
  permuted : (preparedOrder dlls).Perm (List.range dlls.length)
  entries : ∀ (p x : Nat) (dll : Extdll), (preparedOrder dlls)[p]? = some x → dlls[x]? = some dll →
    ∃ dll', prepared[p]? = some dll' ∧ dll'.name = dll.name ∧ dll'.after = dll.after
  attempts : ∀ x d p q, Depends dlls x d → (preparedOrder dlls)[p]? = some x →
    (preparedOrder dlls)[q]? = some d → ∀ before later,
    (loadPhases loader prepared).moduleLoadAttempted = before ++ p :: later → q ∈ before
  delays : ∀ (p x : Nat) (dll dll' : Extdll), (preparedOrder dlls)[p]? = some x →
    dlls[x]? = some dll → prepared[p]? = some dll' → dll.stage.isDeferred = false →
    dll'.stage.isDeferred = true → dll'.delayMs = 0

theorem extdllsPrepare_delayMs (done : extdllsPrepare dlls = some prepared) {p : Nat} {dll dll' : Extdll}
    (before : (sortedDlls dlls)[p]? = some dll) (after : prepared[p]? = some dll')
    (main : dll.stage.isDeferred = false) (late : dll'.stage.isDeferred = true) : dll'.delayMs = 0 := by
  have unchanged (same : dll' = dll) : dll'.delayMs = 0 := by
    rw [same, main] at late
    cases late
  rcases extdllsPrepare_cases done with ⟨few, rfl⟩ | ⟨_, rfl⟩
  · rw [sortedDlls_eq_of_range (preparedOrder_of_few few), after, Option.some.injEq] at before
    exact unchanged before
  · rcases (demote_swept (promote (sortedDlls dlls))).entries p with same | ⟨_, _, _, _, _, moved⟩
    · rcases (promote_promoted (sortedDlls dlls)).1.entries p with same' | ⟨_, _, _, early⟩
      · rw [same, same', before, Option.some.injEq] at after
        exact unchanged after.symm
      · rw [same, early, Option.some.injEq] at after
        rw [← after] at late
        cases late
    · rw [after, Option.some.injEq] at moved
      rw [moved]

theorem dependenciesFirst_of_prepared (done : extdllsPrepare dlls = some prepared)
    (acyclic : Acyclic dlls) (loader : Loader) : DependenciesFirst dlls prepared loader where
  permuted := preparedOrder_ordered.perm
  entries p x dll placed located := by
    have sorted : (sortedDlls dlls)[p]? = some dll := by
      rw [sortedDlls_getElem?, placed, Option.bind_some, located]
    exact shape_getElem? (shape_extdllsPrepare done).symm sorted
  attempts x d p q depends placed placed' before later attempted := by
    have sorted := depends_sortedDlls.mpr ⟨x, d, placed, placed', depends⟩
    obtain ⟨stage, here⟩ := stageAt_extdllsPrepare done sorted.lt.1
    obtain ⟨stage', there⟩ := stageAt_extdllsPrepare done sorted.lt.2
    have order := phase_le_of_depends done acyclic sorted here there
    have before_p := depends_sortedDlls_lt acyclic sorted
    exact attempted_after here there (by omega) attempted
  delays p x dll dll' placed located after main late := by
    refine extdllsPrepare_delayMs done ?_ after main late
    rw [sortedDlls_getElem?, placed, Option.bind_some, located]

theorem acyclic_dependenciesFirst (dlls : List Extdll) (few : dlls.length ≤ 46340)
    (acyclic : Acyclic dlls) (loader : Loader) :
    ∃ prepared, extdllsPrepare dlls = some prepared ∧ DependenciesFirst dlls prepared loader := by
  obtain ⟨prepared, done⟩ := Option.isSome_iff_exists.mp ((extdllsPrepare_isSome_iff dlls).mpr few)
  exact ⟨prepared, done, dependenciesFirst_of_prepared done acyclic loader⟩

private def spanning : List Extdll :=
  [⟨"both", none, .early, 5, ["slow", "ready"]⟩, ⟨"tool", none, .early, 0, ["base", "tool"]⟩,
    ⟨"slow", none, .delay, 50, []⟩, ⟨"base", some "init", .normal, 0, ["missing"]⟩,
    ⟨"ready", none, .dataReady, 0, []⟩]

theorem acyclic_dependenciesFirst_spanning : ∃ prepared, extdllsPrepare spanning = some prepared ∧
    DependenciesFirst spanning prepared ⟨fun _ => true, fun _ => true, fun _ => true, fun _ => true,
      fun _ => false⟩ :=
  acyclic_dependenciesFirst spanning (by decide) (sortOrder_isSome_iff.mp (by decide)) _

/-! One entry more than the budget can be computed for: the first waits for the second. -/

private def crowdEntry (i : Nat) : Extdll :=
  ⟨"dll" ++ toString i, none, .normal, 0, if i = 0 then ["dll1"] else []⟩

private def crowd : List Extdll := (List.range 46341).map crowdEntry

private theorem crowd_depends {x d : Nat} (depends : Depends crowd x d) : x = 0 := by
  obtain ⟨_, dll, located, name, member, _⟩ := depends
  rw [crowd, List.getElem?_map] at located
  obtain ⟨y, at_x, rfl⟩ := Option.map_eq_some_iff.mp located
  obtain ⟨_, rfl⟩ := List.getElem?_eq_some_iff.mp at_x
  by_contra other
  simp [crowdEntry, other] at member

private theorem crowd_acyclic : Acyclic crowd := by
  intro x cycle
  obtain ⟨_, first, _⟩ := Relation.TransGen.head'_iff.mp cycle
  obtain ⟨_, _, last⟩ := Relation.TransGen.tail'_iff.mp cycle
  exact last.1 ((crowd_depends last).trans (crowd_depends first).symm)

theorem acyclic_dependenciesFirst_crowd :
    Acyclic crowd ∧ ¬ ∃ loader prepared, extdllsPrepare crowd = some prepared ∧
      DependenciesFirst crowd prepared loader := by
  refine ⟨crowd_acyclic, ?_⟩
  rintro ⟨loader, prepared, done, _⟩
  have few := (extdllsPrepare_isSome_iff crowd).mp (by rw [done, Option.isSome_some])
  simp [crowd] at few

end Prepared

end Yafsml.Extdll
