import Yafsml.Extdll.Load

/-!
# Unloading

`preload_extdll_one` numbers the modules as it loads them, and `extdlls_unload_all` frees the one with the
highest number until none is left.
-/

namespace Yafsml.Extdll

/-- The fields of `extdll_t` that loading changes. -/
structure LoadedExtdll where
  moduleLoadAttempted : Bool
  dllModule : Bool
  loadOrder : Nat
  deriving DecidableEq, Repr

inductive LibraryCall
  | load (i : Nat)
  | free (i : Nat)
  deriving DecidableEq, Repr

structure ExtdllRun where
  extdlls : List LoadedExtdll
  loadCounter : Nat
  calls : List LibraryCall
  deriving DecidableEq, Repr

namespace ExtdllRun

def start (count : Nat) : ExtdllRun := ⟨List.replicate count ⟨false, false, 0⟩, 0, []⟩

def preload (loadLibrary : Nat → Bool) (r : ExtdllRun) (i : Nat) : ExtdllRun :=
  match r.extdlls[i]? with
  | none => r
  | some extdll =>
      if extdll.moduleLoadAttempted then r
      else if loadLibrary i then
        { extdlls := r.extdlls.set i ⟨true, true, r.loadCounter + 1⟩
          loadCounter := r.loadCounter + 1
          calls := r.calls ++ [.load i] }
      else { r with extdlls := r.extdlls.set i { extdll with moduleLoadAttempted := true } }

def loadOrderAt (extdlls : List LoadedExtdll) (i : Nat) : Nat := (extdlls[i]?.map (·.loadOrder)).getD 0

def isLoaded (extdlls : List LoadedExtdll) (i : Nat) : Bool := (extdlls[i]?.map (·.dllModule)).getD false

/-- The body of the inner loop of `extdlls_unload_all`. -/
def laterLoaded (extdlls : List LoadedExtdll) (latest : Option Nat) (i : Nat) : Option Nat :=
  if isLoaded extdlls i && latest.all fun j => loadOrderAt extdlls j < loadOrderAt extdlls i then some i
  else latest

def lastLoaded (extdlls : List LoadedExtdll) : Option Nat :=
  (List.range extdlls.length).foldl (laterLoaded extdlls) none

/-- The outer loop of `extdlls_unload_all`. -/
def unloadAll : Nat → ExtdllRun → Option ExtdllRun
  | 0, _ => none
  | fuel + 1, r =>
      match lastLoaded r.extdlls with
      | none => some { r with loadCounter := 0 }
      | some i =>
          unloadAll fuel { r with
            extdlls := r.extdlls.modify i fun extdll => { extdll with dllModule := false, loadOrder := 0 }
            calls := r.calls ++ [.free i] }

end ExtdllRun

open ExtdllRun

def extdllsLife (loader : Loader) (dlls : List Extdll) : Option ExtdllRun :=
  unloadAll (dlls.length + 1)
    ((loadPhases loader dlls).moduleLoadAttempted.foldl (preload loader.loadLibrary) (.start dlls.length))

/-! ## The modules that are loaded -/

structure Ledger (extdlls : List LoadedExtdll) (loaded : List Nat) : Prop where
  nodup : loaded.Nodup
  mem : ∀ i, isLoaded extdlls i = true ↔ i ∈ loaded
  order : ∀ k i, loaded[k]? = some i → loadOrderAt extdlls i = k + 1

section Search

variable {extdlls : List LoadedExtdll} {loaded : List Nat}

def Latest (extdlls : List LoadedExtdll) (passed : List Nat) (latest : Option Nat) : Prop :=
  (∀ i ∈ latest, isLoaded extdlls i = true) ∧
    ∀ i ∈ passed, isLoaded extdlls i = true →
      ∃ j ∈ latest, loadOrderAt extdlls i ≤ loadOrderAt extdlls j

theorem latest_foldl (passed rest : List Nat) {latest : Option Nat} (found : Latest extdlls passed latest) :
    Latest extdlls (passed ++ rest) (rest.foldl (laterLoaded extdlls) latest) := by
  induction rest generalizing passed latest with
  | nil => simpa using found
  | cons i rest ih =>
      obtain ⟨sound, highest⟩ := found
      rw [List.append_cons]
      apply ih
      by_cases later : isLoaded extdlls i = true ∧
          latest.all (fun j => loadOrderAt extdlls j < loadOrderAt extdlls i) = true
      · have step : laterLoaded extdlls latest i = some i := by simp [laterLoaded, later]
        rw [step]
        refine ⟨by simpa using later.1, fun l among here => ⟨i, rfl, ?_⟩⟩
        rcases List.mem_append.mp among with before | last
        · obtain ⟨j, found, le⟩ := highest l before here
          have less : loadOrderAt extdlls j < loadOrderAt extdlls i := by simpa [Option.mem_def.mp found] using later.2
          exact le.trans less.le
        · simp [List.mem_singleton.mp last]
      · have step : laterLoaded extdlls latest i = latest := by
          rw [laterLoaded, if_neg (by simpa using later)]
        rw [step]
        refine ⟨sound, fun l among here => ?_⟩
        rcases List.mem_append.mp among with before | last
        · exact highest l before here
        · rw [List.mem_singleton.mp last] at here ⊢
          cases latest with
          | none => simp [here] at later
          | some j => exact ⟨j, rfl, by simpa [here] using later⟩

theorem latest_lastLoaded (extdlls : List LoadedExtdll) :
    Latest extdlls (List.range extdlls.length) (lastLoaded extdlls) := by
  have start : Latest extdlls [] none := ⟨by simp, by simp⟩
  exact latest_foldl [] (List.range extdlls.length) start

theorem inside_of_isLoaded {i : Nat} (loaded : isLoaded extdlls i = true) : i < extdlls.length := by
  by_contra outside
  simp [isLoaded, List.getElem?_eq_none (Nat.le_of_not_lt outside)] at loaded

theorem Ledger.lastLoaded_eq (ledger : Ledger extdlls loaded) : lastLoaded extdlls = loaded.getLast? := by
  obtain ⟨sound, highest⟩ := latest_lastLoaded extdlls
  induction loaded using List.reverseRecOn with
  | nil =>
      cases found : lastLoaded extdlls with
      | none => rfl
      | some i => simpa using (ledger.mem i).mp (sound i found)
  | append_singleton before i =>
      have here : isLoaded extdlls i = true := (ledger.mem i).mpr (by simp)
      obtain ⟨j, found, le⟩ := highest i (List.mem_range.mpr (inside_of_isLoaded here)) here
      rw [Option.mem_def] at found
      rw [found, List.getLast?_concat]
      have among := (ledger.mem j).mp (sound j found)
      have last : loadOrderAt extdlls i = before.length + 1 := ledger.order before.length i (by simp)
      rcases List.mem_append.mp among with earlier | last'
      · obtain ⟨k, inside, at_k⟩ := List.getElem_of_mem earlier
        have number : loadOrderAt extdlls j = k + 1 := ledger.order k j (by
          rw [List.getElem?_append_left inside, List.getElem?_eq_getElem inside, at_k])
        omega
      · rw [List.mem_singleton.mp last']

end Search

/-! ## Loading -/

section Cells

variable {extdlls : List LoadedExtdll} {i : Nat} {extdll : LoadedExtdll}

theorem isLoaded_set (inside : i < extdlls.length) (j : Nat) :
    isLoaded (extdlls.set i extdll) j = if i = j then extdll.dllModule else isLoaded extdlls j := by
  by_cases same : i = j
  · subst same
    simp [isLoaded, inside]
  · simp [isLoaded, List.getElem?_set_ne same, same]

theorem loadOrderAt_set (inside : i < extdlls.length) (j : Nat) :
    loadOrderAt (extdlls.set i extdll) j = if i = j then extdll.loadOrder else loadOrderAt extdlls j := by
  by_cases same : i = j
  · subst same
    simp [loadOrderAt, inside]
  · simp [loadOrderAt, List.getElem?_set_ne same, same]

end Cells

variable {loadLibrary : Nat → Bool} {count : Nat} {r : ExtdllRun} {loaded tried : List Nat}

structure Loading (loadLibrary : Nat → Bool) (count : Nat) (r : ExtdllRun) (tried : List Nat) : Prop where
  length : r.extdlls.length = count
  fresh : ∀ (i : Nat) (extdll : LoadedExtdll), r.extdlls[i]? = some extdll → i ∉ tried → extdll = ⟨false, false, 0⟩
  ledger : Ledger r.extdlls (tried.filter loadLibrary)
  counter : r.loadCounter = (tried.filter loadLibrary).length
  calls : r.calls = (tried.filter loadLibrary).map .load

theorem loading_start (loadLibrary : Nat → Bool) (count : Nat) : Loading loadLibrary count (.start count) [] := by
  have blank (i : Nat) : isLoaded (start count).extdlls i = false := by
    by_cases inside : i < count <;> simp [isLoaded, start, inside]
  refine ⟨by simp [start], ?_, ⟨List.nodup_nil, by simp [blank], by simp⟩, rfl, rfl⟩
  intro i extdll at_i _
  exact List.eq_of_mem_replicate (List.mem_of_getElem? at_i)

theorem Loading.preload (loading : Loading loadLibrary count r tried) {i : Nat} (inside : i < count)
    (untried : i ∉ tried) : Loading loadLibrary count (r.preload loadLibrary i) (tried ++ [i]) := by
  have inside' : i < r.extdlls.length := by simpa [loading.length] using inside
  obtain ⟨extdll, at_i⟩ : ∃ extdll, r.extdlls[i]? = some extdll := ⟨_, List.getElem?_eq_getElem inside'⟩
  obtain rfl := loading.fresh i extdll at_i untried
  have others {after : LoadedExtdll} (j : Nat) (extdll : LoadedExtdll)
      (at_j : (r.extdlls.set i after)[j]? = some extdll) (other : j ∉ tried ++ [i]) :
      extdll = ⟨false, false, 0⟩ := by
    obtain ⟨before, apart⟩ : j ∉ tried ∧ j ≠ i := by simpa using other
    rw [List.getElem?_set_ne (Ne.symm apart)] at at_j
    exact loading.fresh j extdll at_j before
  cases loads : loadLibrary i with
  | false =>
      have result : r.preload loadLibrary i = { r with extdlls := r.extdlls.set i ⟨true, false, 0⟩ } := by
        simp [ExtdllRun.preload, at_i, loads]
      have same : (tried ++ [i]).filter loadLibrary = tried.filter loadLibrary := by simp [loads]
      have absent : isLoaded r.extdlls i = false := by simp [isLoaded, at_i]
      rw [result]
      constructor
      case length => simp [loading.length]
      case fresh => exact others
      case ledger =>
        rw [same]
        refine ⟨loading.ledger.nodup, fun j => ?_, fun k j at_k => ?_⟩
        · rw [isLoaded_set inside', ← loading.ledger.mem]
          split_ifs with here
          · simp [← here, absent]
          · rfl
        · have other : i ≠ j := by
            rintro rfl
            exact untried (List.mem_of_mem_filter (List.mem_of_getElem? at_k))
          rw [loadOrderAt_set inside', if_neg other, loading.ledger.order k j at_k]
      case counter => simp [loads, loading.counter]
      case calls => simp [loads, loading.calls]
  | true =>
      have result : r.preload loadLibrary i = ⟨r.extdlls.set i ⟨true, true, r.loadCounter + 1⟩,
          r.loadCounter + 1, r.calls ++ [.load i]⟩ := by
        simp [ExtdllRun.preload, at_i, loads]
      have more : (tried ++ [i]).filter loadLibrary = tried.filter loadLibrary ++ [i] := by simp [loads]
      have new : i ∉ tried.filter loadLibrary := fun among => untried (List.mem_of_mem_filter among)
      rw [result]
      constructor
      case length => simp [loading.length]
      case fresh => exact others
      case ledger =>
        rw [more]
        refine ⟨loading.ledger.nodup.append (List.nodup_singleton i) (by simpa using new), fun j => ?_,
          fun k j at_k => ?_⟩
        · rw [isLoaded_set inside', List.mem_append, ← loading.ledger.mem, List.mem_singleton]
          split_ifs with here
          · simp [here]
          · simp [Ne.symm here]
        · rw [loadOrderAt_set inside', loading.counter]
          rcases Nat.lt_or_ge k (tried.filter loadLibrary).length with before | last
          · rw [List.getElem?_append_left before] at at_k
            have other : i ≠ j := by
              rintro rfl
              exact new (List.mem_of_getElem? at_k)
            rw [if_neg other, loading.ledger.order k j at_k]
          · obtain ⟨here, rfl⟩ : k = (tried.filter loadLibrary).length ∧ i = j := by
              rw [List.getElem?_append_right last] at at_k
              obtain ⟨short, at_k⟩ := List.getElem?_eq_some_iff.mp at_k
              rw [List.length_singleton] at short
              exact ⟨by omega, by simpa using at_k⟩
            simp [here]
      case counter => simp [loads, loading.counter]
      case calls => simp [loads, loading.calls]

theorem Loading.foldl (loading : Loading loadLibrary count r tried) {attempts : List Nat}
    (nodup : (tried ++ attempts).Nodup) (inside : ∀ i ∈ attempts, i < count) :
    Loading loadLibrary count (attempts.foldl (ExtdllRun.preload loadLibrary) r) (tried ++ attempts) := by
  induction attempts generalizing r tried with
  | nil => simpa using loading
  | cons i attempts ih =>
      have untried : i ∉ tried := fun among =>
        (List.nodup_append.mp nodup).2.2 i among i (by simp) rfl
      rw [List.append_cons] at nodup ⊢
      apply ih (loading.preload (inside i (by simp)) untried) nodup
      exact fun j among => inside j (by simp [among])

/-! ## Unloading -/

theorem Ledger.free {extdlls : List LoadedExtdll} {before : List Nat} {i : Nat}
    (ledger : Ledger extdlls (before ++ [i])) :
    Ledger (extdlls.modify i fun extdll => { extdll with dllModule := false, loadOrder := 0 }) before := by
  obtain ⟨nodup, _, apart⟩ := List.nodup_append.mp ledger.nodup
  have inside := inside_of_isLoaded ((ledger.mem i).mpr (by simp))
  have freed : extdlls.modify i (fun extdll => { extdll with dllModule := false, loadOrder := 0 }) =
      extdlls.set i { extdlls[i] with dllModule := false, loadOrder := 0 } := by
    rw [List.modify_eq_set_getElem?, List.getElem?_eq_getElem inside]
    rfl
  rw [freed]
  refine ⟨nodup, fun j => ?_, fun k j at_k => ?_⟩
  · rw [isLoaded_set inside]
    split_ifs with here
    · subst here
      simpa using fun among => apart i among i (by simp) rfl
    · rw [ledger.mem, List.mem_append, List.mem_singleton]
      simp [Ne.symm here]
  · have other : i ≠ j := fun here => apart j (List.mem_of_getElem? at_k) i (by simp) here.symm
    rw [loadOrderAt_set inside, if_neg other]
    apply ledger.order k j
    rw [List.getElem?_append_left (List.getElem?_eq_some_iff.mp at_k).1, at_k]

theorem unloadAll_spec (ledger : Ledger r.extdlls loaded) {fuel : Nat} (enough : loaded.length < fuel) :
    ∃ final, unloadAll fuel r = some final ∧ final.calls = r.calls ++ loaded.reverse.map .free ∧
      ∀ i, isLoaded final.extdlls i = false := by
  induction loaded using List.reverseRecOn generalizing r fuel with
  | nil =>
      cases fuel with
      | zero => omega
      | succ fuel =>
          have none_left : lastLoaded r.extdlls = none := ledger.lastLoaded_eq
          refine ⟨{ r with loadCounter := 0 }, by simp [unloadAll, none_left], by simp, fun i => ?_⟩
          simpa using (ledger.mem i).not.mpr List.not_mem_nil
  | append_singleton before i ih =>
      cases fuel with
      | zero => omega
      | succ fuel =>
          have last : lastLoaded r.extdlls = some i := by rw [ledger.lastLoaded_eq, List.getLast?_concat]
          rw [List.length_append, List.length_singleton] at enough
          have shorter : before.length < fuel := by omega
          obtain ⟨final, result, calls, none_left⟩ := ih (r := { r with
            extdlls := r.extdlls.modify i fun extdll => { extdll with dllModule := false, loadOrder := 0 }
            calls := r.calls ++ [.free i] }) ledger.free shorter
          refine ⟨final, by simp only [unloadAll, last, result], ?_, none_left⟩
          rw [calls]
          simp

/-! ## From the first load to the last -/

section Life

variable {loader : Loader} {dlls prepared : List Extdll}

/-- The modules the phases load, in the order of their loads. -/
def loadedInOrder (loader : Loader) (dlls : List Extdll) : List Nat :=
  (loadPhases loader dlls).moduleLoadAttempted.filter loader.loadLibrary

theorem loadOrder_nodup (dlls : List Extdll) : (loadOrder dlls).Nodup := by
  have positions_nodup (P : Stage → Bool) : (positions dlls P).Nodup := List.nodup_range.filter _
  have apart {P Q : Stage → Bool} (disjoint : ∀ stage, P stage → ¬ Q stage) :
      List.Disjoint (positions dlls P) (positions dlls Q) :=
    fun _ among among' => positions_disjoint disjoint among among'
  refine ((positions_nodup _).append (positions_nodup _) ?_).append (positions_nodup _) ?_
  · exact apart fun stage => by cases stage <;> decide
  · rw [List.disjoint_append_left]
    exact ⟨apart fun stage => by cases stage <;> decide, apart fun stage => by cases stage <;> decide⟩

theorem attempts_nodup (loader : Loader) (dlls : List Extdll) :
    (loadPhases loader dlls).moduleLoadAttempted.Nodup :=
  (loadOrder_nodup dlls).sublist (loadPhases_attempts loader dlls).sublist

theorem extdllsLife_spec (loader : Loader) (dlls : List Extdll) :
    ∃ final, extdllsLife loader dlls = some final ∧
      final.calls = (loadedInOrder loader dlls).map .load ++ (loadedInOrder loader dlls).reverse.map .free ∧
      ∀ i, isLoaded final.extdlls i = false := by
  have inside : ∀ i ∈ (loadPhases loader dlls).moduleLoadAttempted, i < dlls.length := by
    intro i among
    have among := (loadPhases_attempts loader dlls).subset among
    simp only [loadOrder, positions, List.mem_append, List.mem_filter, List.mem_range] at among
    omega
  have few : (loadPhases loader dlls).moduleLoadAttempted.length ≤ dlls.length := by
    simpa using (List.subperm_of_subset (attempts_nodup loader dlls)
      fun i among => List.mem_range.mpr (inside i among)).length_le
  have untried : ([] ++ (loadPhases loader dlls).moduleLoadAttempted).Nodup := attempts_nodup loader dlls
  have loading := (loading_start loader.loadLibrary dlls.length).foldl untried inside
  have enough : (loadedInOrder loader dlls).length < dlls.length + 1 := by
    have := List.length_filter_le loader.loadLibrary (loadPhases loader dlls).moduleLoadAttempted
    rw [loadedInOrder]
    omega
  obtain ⟨final, result, calls, none_left⟩ := unloadAll_spec loading.ledger enough
  exact ⟨final, result, by rw [calls, loading.calls]; rfl, none_left⟩

theorem dependency_before (done : extdllsPrepare dlls = some prepared) (acyclic : Acyclic dlls)
    {x d p q : Nat} (depends : Depends dlls x d)
    (placed : (preparedOrder dlls)[p]? = some x) (placed' : (preparedOrder dlls)[q]? = some d)
    (here : p ∈ loadedInOrder loader prepared) (there : q ∈ loadedInOrder loader prepared) :
    [q, p].Sublist (loadedInOrder loader prepared) := by
  have sorted := depends_sortedDlls.mpr ⟨x, d, placed, placed', depends⟩
  obtain ⟨stage, at_p⟩ := stageAt_extdllsPrepare done sorted.lt.1
  obtain ⟨stage', at_q⟩ := stageAt_extdllsPrepare done sorted.lt.2
  have order := phase_le_of_depends done acyclic sorted at_p at_q
  have ahead := depends_sortedDlls_lt acyclic sorted
  obtain ⟨before, later, split⟩ := List.append_of_mem (List.mem_of_mem_filter here)
  have among := attempted_after at_p at_q (by omega) split
  have loads (i : Nat) (among : i ∈ loadedInOrder loader prepared) : loader.loadLibrary i = true :=
    (List.mem_filter.mp among).2
  rw [loadedInOrder, split, List.filter_append, List.filter_cons_of_pos (loads p here)]
  exact (List.singleton_sublist.mpr (List.mem_filter.mpr ⟨among, loads q there⟩)).append
    (List.singleton_sublist.mpr (by simp))

/-- Whatever the loader answers and wherever the worker is stopped, the unload frees what was loaded and
nothing else, last first, so that no DLL outlives one it was to be loaded after. -/
theorem extdlls_unload_reverse (loader : Loader) (dlls : List Extdll) (few : dlls.length ≤ 46340) :
    ∃ prepared final, extdllsPrepare dlls = some prepared ∧ extdllsLife loader prepared = some final ∧
      final.calls = (loadedInOrder loader prepared).map .load ++
        (loadedInOrder loader prepared).reverse.map .free ∧
      (loadedInOrder loader prepared).Nodup ∧
      (∀ i, isLoaded final.extdlls i = false) ∧
      (Acyclic dlls → ∀ x d p q, Depends dlls x d → (preparedOrder dlls)[p]? = some x →
        (preparedOrder dlls)[q]? = some d → p ∈ loadedInOrder loader prepared →
        q ∈ loadedInOrder loader prepared →
          [LibraryCall.load q, .load p, .free p, .free q].Sublist final.calls) := by
  obtain ⟨prepared, done⟩ := Option.isSome_iff_exists.mp ((extdllsPrepare_isSome_iff dlls).mpr few)
  obtain ⟨final, result, calls, none_left⟩ := extdllsLife_spec loader prepared
  refine ⟨prepared, final, done, result, calls, (attempts_nodup _ _).filter _, none_left, ?_⟩
  intro acyclic x d p q depends placed placed' here there
  have order := dependency_before done acyclic depends placed placed' here there
  rw [calls]
  have loads := order.map LibraryCall.load
  have frees := order.reverse.map LibraryCall.free
  exact loads.append frees

private def loadingTools : List Extdll :=
  [⟨"both", none, .early, 5, ["slow", "ready"]⟩, ⟨"tool", none, .early, 0, ["base", "tool"]⟩,
    ⟨"slow", none, .delay, 50, []⟩, ⟨"base", some "init", .normal, 0, ["missing"]⟩,
    ⟨"ready", none, .dataReady, 0, []⟩]

theorem extdlls_unload_reverse_tools :
    ∃ prepared final, extdllsPrepare loadingTools = some prepared ∧
      extdllsLife ⟨(· ≠ 0), fun _ => true, fun _ => true, fun _ => true, fun _ => false⟩ prepared = some final ∧
      [LibraryCall.load 1, .load 2, .free 2, .free 1].Sublist final.calls := by
  obtain ⟨prepared, final, done, result, _, _, _, reverse⟩ := extdlls_unload_reverse
    ⟨(· ≠ 0), fun _ => true, fun _ => true, fun _ => true, fun _ => false⟩ loadingTools (by decide)
  have depends : Depends loadingTools 0 4 :=
    ⟨by simp, ⟨"both", none, .early, 5, ["slow", "ready"]⟩, rfl, "ready", by simp, by decide⟩
  refine ⟨prepared, final, done, result, ?_⟩
  obtain rfl := Option.some.inj (done.symm.trans (show extdllsPrepare loadingTools = some
    (demote (promote (sortedDlls loadingTools))) from rfl))
  exact reverse (sortOrder_isSome_iff.mp (by decide)) 0 4 2 1 depends (by decide) (by decide) (by decide)
    (by decide)

end Life

end Yafsml.Extdll
