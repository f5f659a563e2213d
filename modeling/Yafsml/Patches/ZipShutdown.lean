import Yafsml.Patches.ZipLifetime

/-! # The shutdown of the ZIP handles

The invariant of all interleavings of the operations with `ml_zip_file_close_all`, and what holds from
the moment on at which it has taken the table. -/

namespace Yafsml.Patches

open FiniteMap Pending

/-- The files that `ml_zip_file_close_all` still has to release. -/
def Manager.remaining : Manager → List FileId
  | .releasing remaining => remaining
  | _ => []

def Waking {ι : Type*} (pending : ι → List Action) : Prop :=
  ∃ i rest, pending i = .leaveCheck :: rest ∨ pending i = .leaveWake :: rest

theorem waking_start {ι : Type*} [DecidableEq ι] {pending : ι → List Action} {i : ι} {new : List Action} (idle : pending i = [])
    (waking : Waking pending) : Waking (turn pending i new []) := by
  obtain ⟨j, rest, first⟩ := waking
  have apart : j ≠ i := by
    rintro rfl
    simp [idle] at first
  exact ⟨j, rest, by rwa [turn_other apart]⟩

section Invariant

variable {ι : Type*} [Fintype ι]

structure Invariant (s : System ι) : Prop where
  references : ∀ f, s.shared.references f = entries s.shared f + total (holds f) s.pending +
    s.shared.manager.remaining.count f
  closed : ClosedOnce s.shared
  active : s.shared.activeOperations = total leaves s.pending
  counted : s.shared.handleCount = size s.shared
  covered : ∀ i, Covered (s.pending i)
  stopped : s.shared.manager ≠ .idle → s.shared.accepting = false
  taken : s.shared.accepting = false → s.shared.manager ≠ .asleep → s.shared.manager ≠ .woken →
    s.shared.handles = none
  waking : s.shared.manager = .asleep → s.shared.activeOperations ≠ 0 ∨ Waking s.pending

theorem entries_nonneg (s : Shared) (f : FileId) : 0 ≤ entries s f := Int.natCast_nonneg _

theorem entries_pos {s : Shared} {handle : Handle} {entry : ZipHandle}
    (found : s.table.lookup handle = some entry) : 0 < entries s entry.file := by
  have counted := tally_erase (fun other => decide (other.file = entry.file)) s.table handle
  rw [found] at counted
  simp only [share, Option.elim_some, decide_true, if_true] at counted
  unfold entries
  omega

theorem lt_of_references {s : Shared} {f : FileId} (used : 0 < s.references f) : f < s.files.length := by
  by_contra beyond
  rw [Shared.references, List.getElem?_eq_none (Nat.not_lt.mp beyond)] at used
  exact absurd used (by decide)

theorem total_leaves_eq_zero_iff {pending : ι → List Action} :
    total leaves pending = 0 ↔ ∀ i, .leave ∉ pending i := by
  rw [total_eq_zero_iff leaves_nonneg]
  constructor
  · intro free i among
    cases free i _ among
  · intro quiet i a among
    cases a with
    | leave => exact absurd among (quiet i)
    | _ => rfl

namespace Invariant

variable {s : System ι} (invariant : Invariant s)

include invariant

theorem listed {handle : Handle} {entry : ZipHandle} (found : s.shared.table.lookup handle = some entry) :
    0 < s.shared.references entry.file := by
  have := invariant.references entry.file
  have := entries_pos found
  have := total_nonneg (holds_nonneg entry.file) s.pending
  omega

theorem held {f : FileId} {i : ι} {a : Action} (among : a ∈ s.pending i) (holding : 0 < holds f a) :
    0 < s.shared.references f := by
  have := invariant.references f
  have := entries_nonneg s.shared f
  have := le_total (holds_nonneg f) among
  omega

theorem remaining {f : FileId} (among : f ∈ s.shared.manager.remaining) : 0 < s.shared.references f := by
  have := invariant.references f
  have := entries_nonneg s.shared f
  have := total_nonneg (holds_nonneg f) s.pending
  have := List.count_pos_iff.mpr among
  omega

theorem named {i : ι} {a : Action} {rest : List Action} (first : s.pending i = a :: rest) {f : FileId}
    (names : a.uses = some f ∨ 0 < holds f a) : 0 < s.shared.references f := by
  rcases names with uses | holding
  · have covered := invariant.covered i
    rw [first] at covered
    have released := covered.2.1 f uses
    exact invariant.held (i := i) (a := .release f) (by rw [first]; exact .tail _ released) (by simp [holds])
  · exact invariant.held (i := i) (by rw [first]; exact .head _) holding

end Invariant

theorem remaining_perform (w : World) (s : Shared) (a : Action) :
    (perform w s a).1.manager.remaining = s.manager.remaining := by
  rcases perform_manager w s a with same | ⟨_, asleep, woken⟩
  · rw [same]
  · rw [asleep, woken]
    rfl

variable [DecidableEq ι] {s s' : System ι} (invariant : Invariant s)

include invariant

/-- While the manager sleeps there is an operation in flight, or someone about to wake it up. -/
theorem Invariant.turn_waking {i : ι} {a : Action} {rest : List Action} (w : World)
    (first : s.pending i = a :: rest)
    (balanced : Balanced s.shared (perform w s.shared a).1 a (perform w s.shared a).2)
    (asleep : (perform w s.shared a).1.manager = .asleep) :
    (perform w s.shared a).1.activeOperations ≠ 0 ∨
      Waking (turn s.pending i (perform w s.shared a).2 rest) := by
  have before : s.shared.manager = .asleep := by
    rcases perform_manager w s.shared a with same | ⟨_, _, woken⟩
    · rwa [same] at asleep
    · rw [woken] at asleep
      cases asleep
  have stopped := invariant.stopped (by rw [before]; decide)
  by_cases leaving : a = .leave
  · subst leaving
    exact .inr ⟨i, rest, .inl (by rw [turn_self]; rfl)⟩
  by_cases checking : a = .leaveCheck
  · subst checking
    exact .inr ⟨i, rest, .inr (by rw [turn_self]; simp [perform, stopped])⟩
  by_cases waking : a = .leaveWake
  · subst waking
    simp [perform, before] at asleep
  have free : leaves a = 0 := by cases a <;> first | rfl | exact absurd rfl leaving
  rcases invariant.waking before with flying | ⟨j, others, about⟩
  · left
    have := balanced.active
    have := invariant.active
    have := total_nonneg leaves_nonneg s.pending
    have := worth_nonneg leaves_nonneg (perform w s.shared a).2
    omega
  · right
    have apart : j ≠ i := by
      rintro rfl
      rw [first] at about
      simp [checking, waking] at about
    exact ⟨j, others, by rwa [turn_other apart]⟩

theorem Invariant.turn {i : ι} {a : Action} {rest : List Action} (w : World)
    (first : s.pending i = a :: rest) :
    Invariant (⟨(perform w s.shared a).1, turn s.pending i (perform w s.shared a).2 rest⟩ : System ι) := by
  have balanced : Balanced s.shared (perform w s.shared a).1 a (perform w s.shared a).2 :=
    perform_balanced w (fun f names => lt_of_references (invariant.named first names))
      fun handle entry found => lt_of_references (invariant.listed found)
  obtain ⟨accepting, taken⟩ := perform_accepting w s.shared a
  refine ⟨fun f => ?_, ?_, ?_, ?_, fun j => ?_, fun busy => ?_, fun stopped asleep woken => ?_,
    fun asleep => ?_⟩
  · have := balanced.owed f
    have := invariant.references f
    have := total_turn (holds f) first (perform w s.shared a).2
    have := remaining_perform w s.shared a
    simp only
    rw [remaining_perform]
    omega
  · exact perform_closedOnce w invariant.closed (fun f names => invariant.named first names)
      fun handle entry found => invariant.listed found
  · have := balanced.active
    have := invariant.active
    have := total_turn leaves first (perform w s.shared a).2
    simp only
    omega
  · have := balanced.counted
    have := invariant.counted
    simp only
    omega
  · by_cases here : j = i
    · subst here
      have covered := invariant.covered j
      rw [first] at covered
      simp only [turn_self]
      exact perform_covered w s.shared covered
    · simp only [turn_other here]
      exact invariant.covered j
  · rw [accepting]
    apply invariant.stopped
    rcases perform_manager w s.shared a with same | ⟨_, asleep, _⟩
    · rwa [same] at busy
    · rw [asleep]
      decide
  · rw [accepting] at stopped
    rcases perform_manager w s.shared a with same | ⟨_, _, woken'⟩
    · simp only [same] at asleep woken
      exact taken stopped (invariant.taken stopped asleep woken)
    · exact absurd woken' woken
  · exact invariant.turn_waking w first balanced asleep

theorem Invariant.start {i : ι} {a : Action} (idle : s.pending i = []) (outside : starts a = true) :
    Invariant (⟨s.shared, Pending.turn s.pending i [a] []⟩ : System ι) := by
  have free (f : FileId) : holds f a = 0 ∧ leaves a = 0 ∧ a.inside = false ∧ a.uses = none := by
    cases a <;> first | exact ⟨rfl, rfl, rfl, rfl⟩ | cases outside
  refine ⟨fun f => ?_, invariant.closed, ?_, invariant.counted, fun j => ?_, invariant.stopped,
    invariant.taken, fun asleep => ?_⟩
  · have := total_start (holds f) idle [a]
    have := invariant.references f
    simp only [worth_cons, worth_nil, (free f).1] at *
    omega
  · have := total_start leaves idle [a]
    have := invariant.active
    simp only [worth_cons, worth_nil, (free 0).2.1] at *
    omega
  · by_cases here : j = i
    · subst here
      simp only [turn_self]
      exact (Covered.outside trivial (free 0).2.2.1 (free 0).2.2.2 : Covered [_])
    · simp only [turn_other here]
      exact invariant.covered j
  · exact (invariant.waking asleep).imp_right (waking_start idle)

omit [DecidableEq ι] in
theorem Invariant.waitOrTake (free : s.shared.manager.remaining = []) :
    Invariant (⟨waitOrTake { s.shared with accepting := false }, s.pending⟩ : System ι) := by
  have counts (f : FileId) : s.shared.references f =
      entries s.shared f + total (holds f) s.pending := by
    have := invariant.references f
    rw [free] at this
    simpa using this
  unfold Patches.waitOrTake
  split_ifs with flying
  · exact ⟨fun f => (counts f).trans (add_zero _).symm, invariant.closed, invariant.active,
      invariant.counted, invariant.covered, fun _ => rfl, fun _ awake => absurd rfl awake,
      fun _ => .inl flying⟩
  · refine ⟨fun f => ?_, invariant.closed, invariant.active, rfl, invariant.covered, fun _ => rfl,
      fun _ _ _ => rfl, fun asleep => by cases asleep⟩
    have moved : (s.shared.table.entries.map fun entry => entry.2.file).count f =
        tally (fun entry => decide (entry.file = f)) s.shared.table := by
      rw [tally, List.count, List.countP_map, List.countP_map]
      rfl
    change s.shared.references f = (tally (fun entry => decide (entry.file = f))
      (∅ : AList fun _ : Handle => ZipHandle) : ℤ) + total (holds f) s.pending +
        ((s.shared.table.entries.map fun entry => entry.2.file).count f : ℤ)
    rw [moved, tally_empty, counts f, entries]
    simp only [Nat.cast_zero, zero_add]
    exact add_comm _ _

omit [DecidableEq ι] in
theorem Invariant.manage {how : Manage} {shared : Shared} (managed : manage s.shared how = some shared) :
    Invariant (⟨shared, s.pending⟩ : System ι) := by
  cases how with
  | prepare =>
      simp only [Patches.manage] at managed
      split_ifs at managed with idle
      cases managed
      exact ⟨invariant.references, invariant.closed, invariant.active, invariant.counted,
        invariant.covered, fun busy => absurd idle busy, fun stopped => (by cases stopped), invariant.waking⟩
  | closeAll =>
      simp only [Patches.manage] at managed
      split_ifs at managed with idle
      cases managed
      exact invariant.waitOrTake (by rw [idle]; rfl)
  | wakeUp =>
      simp only [Patches.manage] at managed
      split_ifs at managed with asleep
      cases managed
      refine ⟨fun f => ?_, invariant.closed, invariant.active, invariant.counted, invariant.covered,
        fun _ => invariant.stopped (by rw [asleep]; decide), fun _ _ awake => absurd rfl awake,
        fun asleep => by cases asleep⟩
      have := invariant.references f
      rwa [asleep] at this
  | recheck =>
      simp only [Patches.manage] at managed
      split_ifs at managed with woken
      cases managed
      have same : { s.shared with accepting := false } = s.shared := by
        rw [← invariant.stopped (by rw [woken]; decide)]
      have taken := invariant.waitOrTake (by rw [woken]; rfl)
      rwa [same] at taken
  | release =>
      simp only [Patches.manage] at managed
      cases busy : s.shared.manager with
      | idle | asleep | woken => simp [busy] at managed
      | releasing remaining =>
          cases remaining with
          | nil => simp [busy] at managed
          | cons f remaining =>
              simp only [busy, Option.some.injEq] at managed
              subst managed
              have used := invariant.remaining (f := f) (by rw [busy]; exact .head _)
              refine ⟨fun g => ?_, (invariant.closed.release used).congr rfl, invariant.active,
                invariant.counted, invariant.covered, fun _ => invariant.stopped (by rw [busy]; simp),
                fun stopped _ _ => invariant.taken stopped (by rw [busy]; simp) (by rw [busy]; simp),
                fun asleep => by cases asleep⟩
              have released := references_release (lt_of_references used) g
              have counts := invariant.references g
              simp only [busy, Manager.remaining, List.count_cons] at counts
              change (s.shared.release f).references g = entries s.shared g + total (holds g) s.pending +
                (remaining.count g : ℤ)
              simp only [beq_iff_eq] at counts
              split_ifs at released counts <;> push_cast at counts <;> omega
  | finish =>
      simp only [Patches.manage] at managed
      cases busy : s.shared.manager with
      | idle | asleep | woken => simp [busy] at managed
      | releasing remaining =>
          cases remaining with
          | cons f remaining => simp [busy] at managed
          | nil =>
              simp only [busy, Option.some.injEq] at managed
              subst managed
              refine ⟨fun f => ?_, invariant.closed, invariant.active, invariant.counted,
                invariant.covered, fun busy => absurd rfl busy,
                fun stopped _ _ => invariant.taken stopped (by rw [busy]; simp) (by rw [busy]; simp),
                fun asleep => by cases asleep⟩
              have := invariant.references f
              rwa [busy] at this

theorem Invariant.step {e : Event ι} (step : Step s e s') : Invariant s' := by
  cases step with
  | start idle outside => exact invariant.start idle outside
  | turn w first => exact invariant.turn w first
  | manage managed => exact invariant.manage managed

theorem Invariant.run {events : List (Event ι)} (run : Run s events s') : Invariant s' := by
  induction run with
  | nil => exact invariant
  | snoc _ step ih => exact ih.step step

omit invariant

omit [DecidableEq ι] in
theorem invariant_initial : Invariant (System.initial ι) :=
  ⟨fun f => by simp [System.initial, Shared.references, entries, Shared.table, total, Manager.remaining],
    fun f file found => by simp [System.initial] at found,
    by simp [System.initial, total], rfl, fun i => trivial, fun busy => absurd rfl busy,
    fun _ _ _ => rfl, fun asleep => by cases asleep⟩

theorem invariant_of_reachable (reachable : Reachable s) : Invariant s := by
  obtain ⟨events, run⟩ := reachable
  exact invariant_initial.run run

end Invariant

/-! ## Without a table -/

section Shut

variable {ι : Type*} {s s' : System ι}

structure Shut (s : System ι) : Prop where
  stopped : s.shared.accepting = false
  empty : s.shared.handles = none
  awake : s.shared.manager ≠ .asleep ∧ s.shared.manager ≠ .woken
  quiet : ∀ i, .leave ∉ s.pending i

theorem covered_inside {actions : List Action} (covered : Covered actions) (quiet : .leave ∉ actions) :
    ∀ a ∈ actions, a.inside = false := by
  induction actions with
  | nil => simp
  | cons b rest ih =>
      have later : Action.leave ∉ rest := fun among => quiet (.tail _ among)
      intro a among
      rcases List.mem_cons.mp among with rfl | among
      · cases inside : a.inside with
        | false => rfl
        | true => exact absurd (covered.1 inside) later
      · exact ih covered.2.2 later a among

theorem covered_uses {actions : List Action} (covered : Covered actions) {a : Action} {f : FileId}
    (among : a ∈ actions) (uses : a.uses = some f) : .release f ∈ actions := by
  induction actions with
  | nil => cases among
  | cons b rest ih =>
      rcases List.mem_cons.mp among with rfl | among
      · exact .tail _ (covered.2.1 f uses)
      · exact .tail _ (ih covered.2.2 among)

theorem perform_quiet (w : World) {s : Shared} (stopped : s.accepting = false) (empty : s.handles = none)
    {a : Action} (quiet : a ≠ .leave) : .leave ∉ (perform w s a).2 := by
  have missing (handle : Handle) : s.table.lookup handle = none := by
    rw [Shared.table, empty]
    rfl
  cases a with
  | openAccept | openInsert | getAccepting | leaveCheck => simp [perform, stopped]
  | getLocked | closeLocked => simp [perform, missing]
  | openFile r =>
      simp only [perform]
      split_ifs <;> simp
  | getCount | closeCount =>
      simp only [perform]
      split_ifs <;> simp
  | duplicate file sourceAccess r =>
      simp only [perform]
      cases r.granted sourceAccess with
      | none => simp
      | some access => cases w.duplicated <;> simp
  | duplicateInsert file access handle => simp [perform, zipHandleInsert, empty]
  | use | release | leaveWake => simp [perform]
  | leave => exact absurd rfl quiet

variable [DecidableEq ι]

theorem Shut.step [Fintype ι] {e : Event ι} (shut : Shut s) (invariant : Invariant s) (step : Step s e s')
    (other : e ≠ .manage .prepare) : Shut s' := by
  cases step with
  | @start i a idle outside =>
      refine ⟨shut.stopped, shut.empty, shut.awake, fun j => ?_⟩
      by_cases here : j = i
      · subst here
        simp only [turn_self]
        cases a with
        | leave => cases outside
        | _ => simp
      · simp only [turn_other here]
        exact shut.quiet j
  | @turn i a rest w first =>
      obtain ⟨accepting, taken⟩ := perform_accepting w s.shared a
      have quiet := shut.quiet i
      rw [first, List.mem_cons, not_or] at quiet
      refine ⟨accepting.trans shut.stopped, taken shut.stopped shut.empty, ?_, fun j => ?_⟩
      · rcases perform_manager w s.shared a with same | ⟨_, asleep, _⟩
        · rw [same]
          exact shut.awake
        · exact absurd asleep shut.awake.1
      · by_cases here : j = i
        · subst here
          simp only [turn_self, List.mem_append, not_or]
          exact ⟨perform_quiet w shut.stopped shut.empty (Ne.symm quiet.1), quiet.2⟩
        · simp only [turn_other here]
          exact shut.quiet j
  | @manage how shared managed =>
      cases how with
      | prepare => exact absurd rfl other
      | closeAll =>
          simp only [Patches.manage] at managed
          split_ifs at managed
          cases managed
          have none := invariant.active.trans (total_leaves_eq_zero_iff.mpr shut.quiet)
          simp only [waitOrTake, none]
          exact ⟨rfl, rfl, by simp, shut.quiet⟩
      | wakeUp => simp [Patches.manage, shut.awake.1] at managed
      | recheck => simp [Patches.manage, shut.awake.2] at managed
      | release =>
          simp only [Patches.manage] at managed
          split at managed
          · cases managed
            exact ⟨shut.stopped, shut.empty, by simp, shut.quiet⟩
          · cases managed
      | finish =>
          simp only [Patches.manage] at managed
          split at managed
          · cases managed
            exact ⟨shut.stopped, shut.empty, by simp, shut.quiet⟩
          · cases managed

theorem Shut.run [Fintype ι] {events : List (Event ι)} (shut : Shut s) (invariant : Invariant s)
    (run : Run s events s') (others : .manage .prepare ∉ events) : Shut s' := by
  induction run with
  | nil => exact shut
  | snoc run step ih =>
      simp only [List.mem_append, List.mem_singleton, not_or] at others
      exact (ih others.1).step (invariant.run run) step (Ne.symm others.2)

end Shut

/-! ## Waking up -/

section Wake

variable {ι : Type*} [DecidableEq ι] {s s' : System ι}

def Event.turns (i : ι) : Event ι → Nat
  | .turn j _ => if j = i then 1 else 0
  | _ => 0

def turnsOf (i : ι) (events : List (Event ι)) : Nat := (events.map (Event.turns i)).sum

def WakesIn (s : System ι) (events : List (Event ι)) : Prop :=
  ∃ before after middle, events = before ++ after ∧ Run s before middle ∧
    middle.shared.manager ≠ .asleep

def OnItsWay (i : ι) (rest : List Action) (turns : Nat) (s : System ι) : Prop :=
  s.shared.manager = .asleep ∧ s.shared.accepting = false ∧
    ((turns = 0 ∧ s.pending i = .leaveCheck :: rest) ∨ (turns ≤ 1 ∧ s.pending i = .leaveWake :: rest))

theorem OnItsWay.step {i : ι} {rest : List Action} {turns : Nat} {e : Event ι}
    (way : OnItsWay i rest turns s) (step : Step s e s') :
    s'.shared.manager ≠ .asleep ∨ OnItsWay i rest (turns + e.turns i) s' := by
  obtain ⟨asleep, stopped, at_⟩ := way
  cases step with
  | @start j a idle outside =>
      right
      have apart : i ≠ j := by
        rintro rfl
        rcases at_ with ⟨_, at_⟩ | ⟨_, at_⟩ <;> simp [idle] at at_
      refine ⟨asleep, stopped, ?_⟩
      simpa [Event.turns, turn_other apart] using at_
  | @turn j a others w first =>
      by_cases awake : (perform w s.shared a).1.manager ≠ .asleep
      · exact .inl awake
      rw [not_not] at awake
      have stopped' := (perform_accepting w s.shared a).1.trans stopped
      right
      refine ⟨awake, stopped', ?_⟩
      by_cases here : j = i
      · subst here
        rcases at_ with ⟨none, at_⟩ | ⟨_, at_⟩
        · obtain ⟨rfl, rfl⟩ := List.cons.inj (first.symm.trans at_)
          right
          simp [Event.turns, none, turn_self, perform, stopped]
        · obtain ⟨rfl, rfl⟩ := List.cons.inj (first.symm.trans at_)
          simp [perform, asleep] at awake
      · simpa [Event.turns, here, turn_other (Ne.symm here)] using at_
  | @manage how shared managed =>
      left
      cases how <;> simp only [Patches.manage, asleep] at managed <;> simp at managed
      subst managed
      simp

theorem wakesIn_of_turns {i : ι} {rest : List Action} {turns : Nat} {events : List (Event ι)}
    (way : OnItsWay i rest turns s) (run : Run s events s') :
    WakesIn s events ∨ OnItsWay i rest (turns + turnsOf i events) s' := by
  induction run with
  | nil => exact .inr way
  | @snoc s' s'' events e run step ih =>
      rcases ih with ⟨before, after, middle, rfl, early, awake⟩ | later
      · exact .inl ⟨before, after ++ [e], middle, by simp, early, awake⟩
      · rcases later.step step with awake | later
        · exact .inl ⟨events ++ [e], [], s'', by simp, run.snoc step, awake⟩
        · right
          simpa [turnsOf, Nat.add_assoc] using later

end Wake

/-! ## The lifetime of the files -/

section Lifetime

variable {ι : Type*} [Fintype ι] [DecidableEq ι] {s s' : System ι}

/-- No thread has anything of an operation left to do. -/
def Drained (s : System ι) : Prop := ∀ i, ∀ a ∈ s.pending i, a.inside = false ∧ a ≠ .leave

omit [Fintype ι] [DecidableEq ι] in
theorem Shut.drained (shut : Shut s) (covered : ∀ i, Covered (s.pending i)) : Drained s := by
  intro i a among
  refine ⟨covered_inside (covered i) (shut.quiet i) a among, ?_⟩
  rintro rfl
  exact shut.quiet i among

/-- The step in which `ml_zip_file_close_all` comes to the end of its wait. -/
def Takes (s s' : System ι) : Prop :=
  (s.shared.manager = .idle ∨ s.shared.manager = .woken) ∧
    ∃ remaining, s'.shared.manager = .releasing remaining

omit [Fintype ι] in
theorem Takes.shut [Fintype ι] {how : Manage} (invariant : Invariant s) (step : Step s (.manage how) s')
    (takes : Takes s s') : Shut s' := by
  obtain ⟨before, remaining, after⟩ := takes
  have taken (shared : Shared) (active : shared.activeOperations = total leaves s.pending)
      (stopped : shared.accepting = false)
      (after : (waitOrTake shared).manager = .releasing remaining) :
      Shut (⟨waitOrTake shared, s.pending⟩ : System ι) := by
    unfold waitOrTake at after ⊢
    by_cases flying : shared.activeOperations ≠ 0
    · rw [if_pos flying] at after
      cases after
    · rw [if_neg flying]
      exact ⟨stopped, rfl, by simp, total_leaves_eq_zero_iff.mp (active ▸ not_not.mp flying)⟩
  cases step with
  | manage managed =>
      cases how with
      | prepare =>
          simp only [Patches.manage] at managed
          split_ifs at managed with idle
          cases managed
          simp [idle] at after
      | wakeUp | release | finish => rcases before with same | same <;> simp [Patches.manage, same] at managed
      | closeAll =>
          simp only [Patches.manage] at managed
          split_ifs at managed
          cases managed
          exact taken _ invariant.active rfl after
      | recheck =>
          simp only [Patches.manage] at managed
          split_ifs at managed with woken
          cases managed
          exact taken _ invariant.active (invariant.stopped (by rw [woken]; decide)) after

theorem zipHandles_lifetime (reachable : Reachable s) :
    (∀ f, s.shared.references f = entries s.shared f + total (holds f) s.pending +
        s.shared.manager.remaining.count f) ∧
      (∀ f file, s.shared.files[f]? = some file → file.closed ≤ 1 ∧ (file.closed = 1 ↔
        entries s.shared f = 0 ∧ (∀ i, ∀ a ∈ s.pending i, holds f a = 0) ∧
          f ∉ s.shared.manager.remaining)) ∧
      (∀ i a f, a ∈ s.pending i → a.uses = some f ∨ 0 < holds f a →
        ∃ file, s.shared.files[f]? = some file ∧ file.closed = 0) ∧
      s.shared.handleCount = size s.shared ∧
      (∀ how s', Step s (.manage how) s' → Takes s s' → Drained s' ∧
        ∀ events s'', Run s' events s'' → .manage .prepare ∉ events → Drained s'') ∧
      (s.shared.manager = .asleep → (∀ i, .leave ∉ s.pending i) → ∃ i, ∀ events s', Run s events s' →
        2 ≤ turnsOf i events → WakesIn s events) := by
  have invariant := invariant_of_reachable reachable
  have used {i : ι} {a : Action} {f : FileId} (among : a ∈ s.pending i)
      (names : a.uses = some f ∨ 0 < holds f a) : 0 < s.shared.references f := by
    rcases names with uses | holding
    · exact invariant.held (covered_uses (invariant.covered i) among uses) (by simp [holds])
    · exact invariant.held among holding
  refine ⟨invariant.references, fun f file found => ?_, fun i a f among names => ?_, invariant.counted,
    fun how s' step takes => ?_, fun asleep quiet => ?_⟩
  · rw [invariant.closed f file found]
    have counts := invariant.references f
    have same : file.references = s.shared.references f := by simp [Shared.references, found]
    have := entries_nonneg s.shared f
    have := total_nonneg (holds_nonneg f) s.pending
    rw [← total_eq_zero_iff (holds_nonneg f), ← List.count_eq_zero]
    by_cases free : file.references = 0
    · rw [if_pos free]
      exact ⟨le_rfl, fun _ => ⟨by omega, by omega, by omega⟩, fun _ => rfl⟩
    · rw [if_neg free]
      refine ⟨Nat.zero_le 1, iff_of_false (by decide) ?_⟩
      rintro ⟨_, _, _⟩
      omega
  · have old := lt_of_references (used among names)
    refine ⟨s.shared.files[f], List.getElem?_eq_getElem old, ?_⟩
    rw [invariant.closed f _ (List.getElem?_eq_getElem old), if_neg]
    have positive := used among names
    rw [Shared.references, List.getElem?_eq_getElem old] at positive
    exact ne_of_gt positive
  · have shut := takes.shut invariant step
    have invariant' := invariant.step step
    refine ⟨shut.drained invariant'.covered, fun events s'' run others => ?_⟩
    exact (shut.run invariant' run others).drained (invariant'.run run).covered
  · have none := invariant.active.trans (total_leaves_eq_zero_iff.mpr quiet)
    obtain ⟨i, rest, about⟩ := (invariant.waking asleep).resolve_left (not_not.mpr none)
    have stopped := invariant.stopped (by rw [asleep]; decide)
    have way : OnItsWay i rest 0 s :=
      ⟨asleep, stopped, about.imp (fun first => ⟨rfl, first⟩) fun first => ⟨Nat.zero_le 1, first⟩⟩
    refine ⟨i, fun events s' run often => (wakesIn_of_turns way run).resolve_right fun later => ?_⟩
    obtain ⟨_, _, ⟨few, _⟩ | ⟨few, _⟩⟩ := later <;> omega

def willing (event : Handle) : World := ⟨true, true, true, true, true, true, true, 1, event⟩

/-- One thread opens a file and begins to read it when the other one tears the hooks down. -/
def shutdownWhileReading : List (Event Unit) :=
  [.manage .prepare, .start () (.openAccept ⟨fileGenericRead, fileShareRead, openExisting, 0⟩)] ++
    List.replicate 5 (.turn () (willing 8)) ++ [.start () (.getCount 9 .use)] ++
    List.replicate 3 (.turn () (willing 8)) ++ [.manage .closeAll]

theorem zipHandles_lifetime_reading :
    ∃ s : System Unit, Reachable s ∧ s.shared.manager = .asleep ∧ s.shared.references 0 = 2 ∧
      s.shared.handleCount = size s.shared := by
  obtain ⟨s, played, asleep, used⟩ : ∃ s, play (System.initial Unit) shutdownWhileReading = some s ∧
      s.shared.manager = .asleep ∧ s.shared.references 0 = 2 := ⟨_, rfl, rfl, rfl⟩
  have reachable : Reachable s := ⟨_, run_of_play played⟩
  exact ⟨s, reachable, asleep, used, (zipHandles_lifetime reachable).2.2.2.1⟩

end Lifetime

end Yafsml.Patches
