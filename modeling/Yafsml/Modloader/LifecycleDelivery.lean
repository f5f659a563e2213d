import Mathlib.Data.List.Count
import Yafsml.Modloader.Lifecycle

/-! # Delivery

Every observer accepted for a phase is called once, in the order of acceptance, before the call that
reached the phase returns. -/

namespace Yafsml.Modloader.Lifecycle

variable {ι : Type} {s t : Lifecycle ι} {i : ι}

/-! ## The scan -/

def emptied (observer : Observer ι) : Observer ι := { observer with callback := none }

theorem takeObserver_none {phase : Int} {observers : List (Observer ι)}
    (none_left : takeObserver phase observers = none) :
    ∀ observer ∈ observers.filter (·.phase == phase), observer.callback.isSome = false := by
  induction observers with
  | nil => simp
  | cons first rest ih =>
      rw [takeObserver] at none_left
      split at none_left
      · cases none_left
      · rename_i skipped
        have later := ih (Option.map_eq_none_iff.1 none_left)
        intro observer member
        rw [List.filter_cons] at member
        split at member
        · rename_i here
          rcases List.mem_cons.1 member with rfl | member
          · simpa [here] using skipped
          · exact later observer member
        · exact later observer member

theorem takeObserver_some {phase : Int} {observers emptier : List (Observer ι)}
    {observer : Observer ι} (found : takeObserver phase observers = some (observer, emptier)) :
    observer.callback.isSome = true ∧
    (∃ before after, observers.filter (·.phase == phase) = before ++ observer :: after ∧
      emptier.filter (·.phase == phase) = before ++ emptied observer :: after ∧
      ∀ earlier ∈ before, earlier.callback.isSome = false) ∧
    ∀ other, other ≠ phase →
      emptier.filter (·.phase == other) = observers.filter (·.phase == other) := by
  induction observers generalizing emptier with
  | nil => cases found
  | cons first rest ih =>
      rw [takeObserver] at found
      split at found
      · rename_i here
        cases found
        rw [Bool.and_eq_true] at here
        refine ⟨here.1, ⟨[], rest.filter (·.phase == phase), ?_, ?_, by simp⟩, ?_⟩
        · simp [here.2]
        · simp [here.2, emptied]
        · intro other different
          have elsewhere : (observer.phase == other) = false := by
            rw [beq_iff_eq.1 here.2, beq_eq_false_iff_ne]
            exact Ne.symm different
          simp [elsewhere]
      · rename_i skipped
        obtain ⟨⟨taken, rest'⟩, later, same⟩ := Option.map_eq_some_iff.1 found
        cases same
        obtain ⟨callback, ⟨before, after, old, new, earlier⟩, others⟩ := ih later
        refine ⟨callback, ?_, ?_⟩
        · by_cases here : (first.phase == phase) = true
          · refine ⟨first :: before, after, ?_, ?_, ?_⟩
            · simp [here, old]
            · simp [here, new]
            · intro o member
              rcases List.mem_cons.1 member with rfl | member
              · simpa [here] using skipped
              · exact earlier o member
          · exact ⟨before, after, by simp [here, old], by simp [here, new], earlier⟩
        · intro other different
          rw [List.filter_cons, List.filter_cons, others other different]

theorem cut_unique {α : Type} {p : α → Bool} {before after xs ys : List α} {a : α}
    (same : before ++ a :: after = xs ++ ys) (fails : ∀ x ∈ before, p x = false)
    (holds : p a = true) (fails' : ∀ x ∈ xs, p x = false) (holds' : ∀ y ∈ ys, p y = true) :
    before = xs ∧ ys = a :: after := by
  rcases List.append_eq_append_iff.1 same with ⟨more, rfl, rest⟩ | ⟨more, rfl, rest⟩
  · cases more with
    | nil => exact ⟨by simp, by simpa using rest.symm⟩
    | cons m more =>
        cases rest
        exact absurd (fails' a (by simp)) (by simp [holds])
  · cases more with
    | nil => exact ⟨by simp, by simpa using rest⟩
    | cons m more => exact absurd (fails m (by simp)) (by simp [holds' m (by simp [rest])])

theorem mem_registered {phase : Int} {observer : Observer ι} (member : observer ∈ s.registered phase) :
    observer.phase = phase ∧ .returned observer true ∈ s.events := by
  simp only [registered, List.mem_filterMap] at member
  obtain ⟨event, inside, here⟩ := member
  split at here
  · split at here
    · cases here
      exact ⟨by assumption, inside⟩
    · cases here
  · cases here

/-! ## What a thread can be doing -/

def appends : List (Frame ι) → Bool
  | .append .. :: _ => true
  | _ => false

def Nested : List (Frame ι) → Prop
  | [] => True
  | _ :: rest => canCall rest = true ∧ Nested rest

def dispatches (phase : Int) : Frame ι → Bool
  | .scan p => p == phase
  | .taken p _ => p == phase
  | .calling p => p == phase
  | _ => false

theorem not_appends_of_canCall {frames : List (Frame ι)} (free : canCall frames = true) :
    appends frames = false := by
  cases frames with
  | nil => rfl
  | cons frame rest => cases frame <;> simp_all [canCall, appends]

theorem head_of_canCall {frames : List (Frame ι)} (free : canCall frames = true)
    {frame : Frame ι} (top : frames.head? = some frame) : ∃ phase, frame = .calling phase := by
  cases frames with
  | nil => cases top
  | cons first rest =>
      cases top
      cases frame <;> simp_all [canCall]

theorem not_taken_of_canCall {phase : Int} {frames : List (Frame ι)} (free : canCall frames = true)
    (o : Observer ι) : frames.head? ≠ some (.taken phase o) := by
  intro top
  obtain ⟨p, same⟩ := head_of_canCall free top
  cases same

theorem not_append_of_canCall {phase : Int} {frames : List (Frame ι)} (free : canCall frames = true)
    (callback : Callback) (userp : Nat) :
    frames.head? ≠ some (.append phase callback userp) := by
  intro top
  obtain ⟨p, same⟩ := head_of_canCall free top
  cases same

structure Locked (s : Lifecycle ι) : Prop where
  nested : ∀ i, Nested (s.frames i)
  holder : ∀ i, s.lock = some i ↔ appends (s.frames i) = true

theorem Nested.rest {frame : Frame ι} {rest : List (Frame ι)} (h : ∀ i, Nested (s.frames i))
    (at_ : s.frames i = frame :: rest) : canCall rest = true ∧ Nested rest := by
  have here := h i
  rwa [at_] at here

variable [DecidableEq ι]

theorem Locked.nested_turn (h : Locked s) {frames : List (Frame ι)} (shape : Nested frames)
    (turned : t.frames = Function.update s.frames i frames) (j : ι) : Nested (t.frames j) := by
  rw [turned]
  by_cases here : j = i
  · subst here
    rwa [Function.update_self]
  · rw [Function.update_of_ne here]
    exact h.nested j

theorem Locked.turn (h : Locked s) (frames : List (Frame ι)) (shape : Nested frames)
    (same : appends frames = appends (s.frames i)) (lock : t.lock = s.lock)
    (turned : t.frames = Function.update s.frames i frames) : Locked t := by
  refine ⟨h.nested_turn shape turned, fun j => ?_⟩
  rw [turned, lock]
  by_cases here : j = i
  · subst here
    rw [Function.update_self, same]
    exact h.holder j
  · rw [Function.update_of_ne here]
    exact h.holder j

theorem Locked.acquire (h : Locked s) (frames : List (Frame ι)) (unlocked : s.lock = none)
    (shape : Nested frames) (holds : appends frames = true) (lock : t.lock = some i)
    (turned : t.frames = Function.update s.frames i frames) : Locked t := by
  refine ⟨h.nested_turn shape turned, fun j => ?_⟩
  rw [turned, lock]
  by_cases here : j = i
  · subst here
    simp [holds]
  · rw [Function.update_of_ne here, ← h.holder j, unlocked]
    simp [Ne.symm here]

theorem Locked.release (h : Locked s) {frames : List (Frame ι)} (held : s.lock = some i)
    (shape : Nested frames) (free : appends frames = false) (lock : t.lock = none)
    (turned : t.frames = Function.update s.frames i frames) : Locked t := by
  refine ⟨h.nested_turn shape turned, fun j => ?_⟩
  rw [turned, lock]
  by_cases here : j = i
  · subst here
    simp [free]
  · rw [Function.update_of_ne here, ← h.holder j, held]
    simp [Ne.symm here]

theorem Step.locked (step : Step s t) (h : Locked s) : Locked t := by
  cases step with
  | @register i phase callback userp free =>
      have same : Nested (s.frames i) := h.nested i
      cases callback with
      | none => exact h.turn _ same rfl rfl rfl
      | some callback =>
          show Locked (if validPhase phase = true then _ else _)
          split
          · exact h.turn (.onPhase phase callback userp :: s.frames i) ⟨free, same⟩
              (by rw [not_appends_of_canCall free]; rfl) rfl rfl
          · exact h.turn _ same rfl rfl rfl
  | @test i phase callback userp rest at_ unlocked =>
      have below := Nested.rest h.nested at_
      split
      · exact h.turn rest below.2 (by rw [at_, not_appends_of_canCall below.1]; rfl) rfl rfl
      · exact h.acquire (.append phase callback userp :: rest) unlocked below rfl rfl rfl
  | @append i phase callback userp rest memory at_ =>
      have below := Nested.rest h.nested at_
      have held : s.lock = some i := (h.holder i).2 (by rw [at_]; rfl)
      split
      · exact h.release held below.2 (not_appends_of_canCall below.1) rfl rfl
      · exact h.release held below.2 (not_appends_of_canCall below.1) rfl rfl
  | @enter i phase free valid =>
      exact h.turn (.advance phase :: s.frames i) ⟨free, h.nested i⟩
        (by rw [not_appends_of_canCall free]; rfl) rfl rfl
  | @reach i phase rest at_ =>
      have below := Nested.rest h.nested at_
      split
      · exact h.turn rest below.2 (by rw [at_, not_appends_of_canCall below.1]; rfl) rfl rfl
      · exact h.turn (.scan phase :: rest) below (by rw [at_]; rfl) rfl rfl
  | @scan i phase rest at_ unlocked =>
      have below := Nested.rest h.nested at_
      split
      · exact h.turn rest below.2 (by rw [at_, not_appends_of_canCall below.1]; rfl) rfl rfl
      · rename_i observer observers _
        exact h.turn (.taken phase observer :: rest) below (by rw [at_]; rfl) rfl rfl
  | @call i phase observer rest at_ =>
      exact h.turn (.calling phase :: rest) (Nested.rest h.nested at_)
        (by rw [at_]; rfl) rfl rfl
  | @back i phase rest at_ =>
      exact h.turn (.scan phase :: rest) (Nested.rest h.nested at_)
        (by rw [at_]; rfl) rfl rfl

theorem Reachable.locked (reachable : Reachable s) : Locked s := by
  induction reachable with
  | refl => exact ⟨fun _ => trivial, fun _ => ⟨nofun, nofun⟩⟩
  | tail _ step ih => exact step.locked ih

/-! ## One phase -/

/-- The state of one phase: the thread that calls its observers, the observer it has taken, and
those that wait. -/
structure Serves (s : Lifecycle ι) (phase : Int) (dispatcher : Option ι)
    (flight : Option (Observer ι)) (waiting : List (Observer ι)) : Prop where
  sole : ∀ j, (s.frames j).countP (dispatches phase) = if dispatcher = some j then 1 else 0
  unreached : s.reached phase = false → dispatcher = none
  taken : ∀ o, flight = some o ↔ ∃ j, (s.frames j).head? = some (.taken phase o)
  accepted : s.registered phase = s.called phase ++ flight.toList ++ waiting
  stored : s.observers.filter (·.phase == phase) =
    (s.called phase ++ flight.toList).map emptied ++ waiting
  waits : ∀ o ∈ waiting, o.callback.isSome = true
  drained : s.reached phase = true → dispatcher = none →
    waiting = [] ∧ ∀ j callback userp, (s.frames j).head? ≠ some (.append phase callback userp)
  finished : .finished phase ∈ s.events → s.reached phase = true ∧ dispatcher = none

structure Quiet (s t : Lifecycle ι) (phase : Int) : Prop where
  registered : t.registered phase = s.registered phase
  called : t.called phase = s.called phase
  observers : t.observers.filter (·.phase == phase) = s.observers.filter (·.phase == phase)
  reached : t.reached phase = s.reached phase
  finished : .finished phase ∈ t.events → .finished phase ∈ s.events
  dispatches : ∀ j, (t.frames j).countP (dispatches phase) = (s.frames j).countP (dispatches phase)
  taken : ∀ j o, (t.frames j).head? = some (.taken phase o) ↔
    (s.frames j).head? = some (.taken phase o)
  appends : t.reached phase = true → ∀ j callback userp,
    (t.frames j).head? = some (.append phase callback userp) →
    (s.frames j).head? = some (.append phase callback userp)

variable {phase : Int} {dispatcher : Option ι} {flight : Option (Observer ι)}
  {waiting : List (Observer ι)}

theorem Serves.quiet (h : Serves s phase dispatcher flight waiting) (quiet : Quiet s t phase) :
    Serves t phase dispatcher flight waiting := by
  constructor
  · intro j
    rw [quiet.dispatches]
    exact h.sole j
  · rw [quiet.reached]
    exact h.unreached
  · intro o
    rw [h.taken]
    exact exists_congr fun j => (quiet.taken j o).symm
  · rw [quiet.registered, quiet.called]
    exact h.accepted
  · rw [quiet.observers, quiet.called]
    exact h.stored
  · exact h.waits
  · intro reached idle
    obtain ⟨empty, none_appends⟩ := h.drained (by rwa [← quiet.reached]) idle
    exact ⟨empty, fun j callback userp top =>
      none_appends j callback userp (quiet.appends reached j callback userp top)⟩
  · intro ended
    rw [quiet.reached]
    exact h.finished (quiet.finished ended)

theorem Serves.dispatcher_of_top (h : Serves s phase dispatcher flight waiting) {frame : Frame ι}
    {j : ι} (top : (s.frames j).head? = some frame) (does : dispatches phase frame = true) :
    dispatcher = some j := by
  by_contra other
  have count := h.sole j
  rw [if_neg other, List.countP_eq_zero] at count
  exact count frame (List.mem_of_mem_head? top) does

theorem Serves.flight_none (h : Serves s phase dispatcher flight waiting)
    (free : ∀ j o, dispatcher = some j → (s.frames j).head? ≠ some (.taken phase o)) :
    flight = none := by
  cases flight with
  | none => rfl
  | some o =>
      obtain ⟨j, top⟩ := (h.taken o).1 rfl
      exact absurd top (free j o (h.dispatcher_of_top top (by simp [dispatches])))

theorem top_update {frames : List (Frame ι)} {frame : Frame ι}
    (turned : t.frames = Function.update s.frames i frames) (j : ι) (other : j ≠ i) :
    (t.frames j).head? = some frame ↔ (s.frames j).head? = some frame := by
  rw [turned, Function.update_of_ne other]

/-- A thread's step is quiet for a phase it neither takes an observer of nor adds one to. -/
theorem Quiet.of_turn (frames : List (Frame ι))
    (turned : t.frames = Function.update s.frames i frames)
    (registered : t.registered phase = s.registered phase)
    (called : t.called phase = s.called phase)
    (observers : t.observers.filter (·.phase == phase) = s.observers.filter (·.phase == phase))
    (reached : t.reached phase = s.reached phase)
    (finished : .finished phase ∈ t.events → .finished phase ∈ s.events)
    (count : frames.countP (Lifecycle.dispatches phase) =
      (s.frames i).countP (Lifecycle.dispatches phase))
    (before : ∀ o, (s.frames i).head? ≠ some (.taken phase o))
    (after : ∀ o, frames.head? ≠ some (.taken phase o))
    (appends : s.reached phase = true → ∀ callback userp,
      frames.head? ≠ some (.append phase callback userp)) : Quiet s t phase := by
  have here : t.frames i = frames := by rw [turned, Function.update_self]
  refine ⟨registered, called, observers, reached, finished, fun j => ?_, fun j o => ?_, ?_⟩
  · by_cases same : j = i
    · subst same
      rw [here, count]
    · rw [turned, Function.update_of_ne same]
  · by_cases same : j = i
    · subst same
      rw [here]
      exact ⟨fun top => absurd top (after o), fun top => absurd top (before o)⟩
    · exact top_update turned j same
  · intro bit j callback userp top
    by_cases same : j = i
    · subst same
      rw [here] at top
      exact absurd top (appends (reached ▸ bit) callback userp)
    · exact (top_update turned j same).1 top

/-! ## What the events of a step add -/

@[simp] theorem registered_leave_false (frames : List (Frame ι)) (p : Int)
    (callback : Option Callback) (userp : Nat) :
    (s.leave i frames p callback userp false).registered phase = s.registered phase := by
  simp [registered, leave]

@[simp] theorem called_leave (frames : List (Frame ι)) (p : Int) (callback : Option Callback)
    (userp : Nat) (result : Bool) :
    (s.leave i frames p callback userp result).called phase = s.called phase := by
  simp [called, leave]

@[simp] theorem finished_leave (frames : List (Frame ι)) (p : Int) (callback : Option Callback)
    (userp : Nat) (result : Bool) :
    .finished phase ∈ (s.leave i frames p callback userp result).events ↔
      .finished phase ∈ s.events := by
  simp [leave]

theorem Quiet.leave {frames : List (Frame ι)} {p : Int} {callback : Option Callback} {userp : Nat}
    (free : canCall frames = true)
    (count : frames.countP (Lifecycle.dispatches phase) =
      (s.frames i).countP (Lifecycle.dispatches phase))
    (before : ∀ o, (s.frames i).head? ≠ some (.taken phase o)) :
    Quiet s (s.leave i frames p callback userp false) phase :=
  .of_turn frames rfl (registered_leave_false ..) (called_leave ..) rfl rfl
    (finished_leave ..).1 count before (not_taken_of_canCall free)
    fun _ => not_append_of_canCall free

/-! ## The steps that serve a phase -/

theorem Serves.accept (h : Serves s phase dispatcher flight waiting) {observer : Observer ι}
    {callback : Callback} {userp : Nat} {rest : List (Frame ι)}
    (at_ : s.frames i = .append phase callback userp :: rest)
    (free : canCall rest = true) (turned : t.frames = Function.update s.frames i rest)
    (same : observer.phase = phase) (full : observer.callback.isSome = true)
    (registered : t.registered phase = s.registered phase ++ [observer])
    (called : t.called phase = s.called phase)
    (observers : t.observers = s.observers ++ [observer]) (reached : t.reached = s.reached)
    (finished : .finished phase ∈ t.events ↔ .finished phase ∈ s.events) :
    Serves t phase dispatcher flight (waiting ++ [observer]) := by
  have here : t.frames i = rest := by rw [turned, Function.update_self]
  constructor
  · intro j
    by_cases own : j = i
    · subst own
      rw [here, ← h.sole j, at_, List.countP_cons_of_neg (by simp [dispatches])]
    · rw [turned, Function.update_of_ne own]
      exact h.sole j
  · rw [reached]
    exact h.unreached
  · intro o
    rw [h.taken]
    refine exists_congr fun j => ?_
    by_cases own : j = i
    · subst own
      rw [here, at_]
      exact ⟨nofun, fun top => absurd top (not_taken_of_canCall free o)⟩
    · exact (top_update turned j own).symm
  · rw [registered, called, h.accepted, List.append_assoc]
  · rw [observers, called, List.filter_append, h.stored, List.append_assoc]
    simp [same]
  · intro o member
    rcases List.mem_append.1 member with member | member
    · exact h.waits o member
    · rwa [List.mem_singleton.1 member]
  · intro bit idle
    obtain ⟨-, none_appends⟩ := h.drained (by rwa [← reached]) idle
    exact absurd (by rw [at_]; rfl) (none_appends i callback userp)
  · rw [finished, reached]
    exact h.finished

theorem Serves.reach (h : Serves s phase dispatcher flight waiting) {rest : List (Frame ι)}
    (at_ : s.frames i = .advance phase :: rest) (fresh : s.reached phase = false) :
    Serves { s.turn i (.scan phase :: rest) with reached := Function.update s.reached phase true }
      phase (some i) flight waiting := by
  have idle : dispatcher = none := h.unreached fresh
  subst idle
  constructor
  · intro j
    have none_here := h.sole j
    by_cases own : j = i
    · subst own
      rw [at_] at none_here
      simpa [turn, dispatches] using none_here
    · simpa [turn, own, Ne.symm own] using none_here
  · simp
  · intro o
    rw [h.taken]
    refine exists_congr fun j => ?_
    by_cases own : j = i
    · subst own
      simp [turn, at_]
    · exact (top_update rfl j own).symm
  · exact h.accepted
  · exact h.stored
  · exact h.waits
  · intro _ idle
    cases idle
  · intro ended
    have before := (h.finished ended).1
    rw [fresh] at before
    cases before

theorem Serves.scanning (h : Serves s phase dispatcher flight waiting) {rest : List (Frame ι)}
    (at_ : s.frames i = .scan phase :: rest) :
    dispatcher = some i ∧ flight = none ∧ s.reached phase = true ∧
      rest.countP (dispatches phase) = 0 := by
  have mine : dispatcher = some i := h.dispatcher_of_top (by rw [at_]; rfl) (by simp [dispatches])
  subst mine
  refine ⟨rfl, h.flight_none ?_, ?_, ?_⟩
  · intro j o own
    cases own
    rw [at_]
    nofun
  · cases bit : s.reached phase with
    | true => rfl
    | false => cases h.unreached bit
  · have count := h.sole i
    rw [at_, if_pos rfl, List.countP_cons_of_pos (by simp [dispatches])] at count
    omega

theorem Serves.finish (h : Serves s phase dispatcher flight waiting) (locked : Locked s)
    {rest : List (Frame ι)} (at_ : s.frames i = .scan phase :: rest) (unlocked : s.lock = none)
    (empty : takeObserver phase s.observers = none) :
    Serves { s.turn i rest with events := s.events ++ [.finished phase] } phase none none [] := by
  obtain ⟨rfl, rfl, bit, count⟩ := h.scanning at_
  have free := (Nested.rest locked.nested at_).1
  have drained : waiting = [] := by
    rw [List.eq_nil_iff_forall_not_mem]
    intro o member
    have taken := takeObserver_none empty o
      (by rw [h.stored]; exact List.mem_append_right _ member)
    rw [h.waits o member] at taken
    cases taken
  subst drained
  constructor
  · intro j
    by_cases own : j = i
    · subst own
      simpa [turn] using count
    · simpa [turn, own, Ne.symm own] using h.sole j
  · intro _
    rfl
  · intro o
    refine ⟨nofun, fun ⟨j, top⟩ => ?_⟩
    by_cases own : j = i
    · subst own
      rw [show (turn s j rest).frames j = rest from Function.update_self ..] at top
      exact absurd top (not_taken_of_canCall free o)
    · exact (h.taken o).2 ⟨j, (top_update (t := { s.turn i rest with
        events := s.events ++ [.finished phase] }) rfl j own).1 top⟩
  · simpa [registered, called, turn] using h.accepted
  · simpa [called, turn] using h.stored
  · simp
  · intro _ _
    refine ⟨rfl, fun j callback userp top => ?_⟩
    by_cases own : j = i
    · subst own
      rw [show (turn s j rest).frames j = rest from Function.update_self ..] at top
      exact absurd top (not_append_of_canCall free callback userp)
    · rw [show (turn s i rest).frames j = s.frames j from Function.update_of_ne own ..] at top
      have held := (locked.holder j).2 (by
        cases fs : s.frames j with
        | nil => simp [fs] at top
        | cons f fs' =>
            rw [fs] at top
            cases top
            rfl)
      rw [unlocked] at held
      cases held
  · intro _
    exact ⟨bit, rfl⟩

theorem Serves.take (h : Serves s phase dispatcher flight waiting) {rest : List (Frame ι)}
    (at_ : s.frames i = .scan phase :: rest) {observer : Observer ι}
    {observers : List (Observer ι)}
    (found : takeObserver phase s.observers = some (observer, observers)) :
    ∃ waiting', Serves { s.turn i (.taken phase observer :: rest) with observers := observers }
      phase (some i) (some observer) waiting' := by
  obtain ⟨rfl, rfl, bit, count⟩ := h.scanning at_
  obtain ⟨full, ⟨before, after, old, new, earlier⟩, -⟩ := takeObserver_some found
  have stored := h.stored
  simp only [Option.toList_none, List.append_nil] at stored
  rw [old] at stored
  obtain ⟨rfl, rfl⟩ := cut_unique (p := fun o => o.callback.isSome) stored earlier full
    (by simp [emptied]) h.waits
  refine ⟨after, ?_, ?_, ?_, ?_, ?_, ?_, ?_, ?_⟩
  · intro j
    by_cases own : j = i
    · subst own
      simpa [turn, dispatches] using count
    · simpa [turn, own, Ne.symm own] using h.sole j
  · intro unreached
    rw [show s.reached phase = false from unreached] at bit
    cases bit
  · intro o
    constructor
    · intro same
      cases same
      exact ⟨i, by simp [turn]⟩
    · rintro ⟨j, top⟩
      by_cases own : j = i
      · subst own
        simpa [turn] using top
      · exact absurd ((h.taken o).2 ⟨j, (top_update (t := { s.turn i (.taken phase observer :: rest)
          with observers := observers }) rfl j own).1 top⟩) nofun
  · simpa [registered, called, turn] using h.accepted
  · simpa [called, turn] using new
  · intro o member
    exact h.waits o (List.mem_cons_of_mem _ member)
  · intro _ idle
    cases idle
  · intro ended
    cases (h.finished ended).2

theorem Serves.phase_of_taken (h : Serves s phase dispatcher flight waiting) {observer : Observer ι}
    (held : flight = some observer) : observer.phase = phase := by
  have member : observer ∈ s.registered phase := by
    rw [h.accepted, held]
    simp
  exact (mem_registered member).1

theorem Serves.call (h : Serves s phase dispatcher flight waiting) {rest : List (Frame ι)}
    {observer : Observer ι} (at_ : s.frames i = .taken phase observer :: rest) :
    Serves { s.turn i (.calling phase :: rest) with events := s.events ++ [.called observer] }
      phase dispatcher none waiting := by
  have held : flight = some observer := (h.taken observer).2 ⟨i, by rw [at_]; rfl⟩
  subst held
  have mine : dispatcher = some i := h.dispatcher_of_top (by rw [at_]; rfl) (by simp [dispatches])
  subst mine
  have accepted := h.accepted
  have same : observer.phase = phase := h.phase_of_taken rfl
  constructor
  · intro j
    by_cases own : j = i
    · subst own
      have count := h.sole j
      rw [at_] at count
      simpa [turn, dispatches] using count
    · simpa [turn, own, Ne.symm own] using h.sole j
  · exact h.unreached
  · intro o
    refine ⟨nofun, fun ⟨j, top⟩ => ?_⟩
    by_cases own : j = i
    · subst own
      simp [turn] at top
    · have before := (top_update (t := { s.turn i (.calling phase :: rest)
        with events := s.events ++ [.called observer] }) rfl j own).1 top
      have also := h.dispatcher_of_top before (by simp [dispatches])
      exact absurd (Option.some.inj also).symm own
  · simpa [registered, called, turn, same] using accepted
  · simpa [called, turn, same] using h.stored
  · exact h.waits
  · intro _ idle
    cases idle
  · intro ended
    exact h.finished (by simpa [turn] using ended)

theorem Step.serves (step : Step s t) (locked : Locked s)
    (all : ∀ phase, ∃ dispatcher flight waiting, Serves s phase dispatcher flight waiting) :
    ∃ dispatcher flight waiting, Serves t phase dispatcher flight waiting := by
  obtain ⟨dispatcher, flight, waiting, h⟩ := all phase
  cases step with
  | @register i p callback userp free =>
      have no_effect : Quiet s (s.leave i (s.frames i) p callback userp false) phase :=
        .leave free rfl (not_taken_of_canCall free)
      cases callback with
      | none => exact ⟨_, _, _, h.quiet no_effect⟩
      | some callback =>
          show ∃ dispatcher flight waiting, Serves (if validPhase p = true then _ else _) ..
          split
          · refine ⟨_, _, _, h.quiet (.of_turn (.onPhase p callback userp :: s.frames i)
              rfl rfl rfl rfl rfl id ?_ (not_taken_of_canCall free) nofun nofun)⟩
            exact List.countP_cons_of_neg (by simp [dispatches])
          · exact ⟨_, _, _, h.quiet no_effect⟩
  | @test i p callback userp rest at_ unlocked =>
      have below := Nested.rest locked.nested at_
      split
      · exact ⟨_, _, _, h.quiet (.leave below.1 (by rw [at_]; rfl) (by rw [at_]; nofun))⟩
      · rename_i unreached
        refine ⟨_, _, _, h.quiet (.of_turn (.append p callback userp :: rest)
          rfl rfl rfl rfl rfl id (by rw [at_]; rfl) (by rw [at_]; nofun) nofun ?_)⟩
        intro reached callback userp top
        cases top
        exact unreached reached
  | @append i p callback userp rest memory at_ =>
      have below := Nested.rest locked.nested at_
      split
      · exact ⟨_, _, _, h.quiet (.of_turn rest rfl (registered_leave_false rest ..) (called_leave rest ..)
          rfl rfl (finished_leave rest ..).1 (by rw [at_]; rfl) (by rw [at_]; nofun)
          (not_taken_of_canCall below.1) fun _ => not_append_of_canCall below.1)⟩
      · by_cases same : p = phase
        · subst same
          refine ⟨_, _, _, h.accept at_ below.1 rfl rfl rfl ?_ (called_leave rest ..) rfl rfl
            (finished_leave rest ..)⟩
          simp [registered, leave]
        · refine ⟨_, _, _, h.quiet (.of_turn rest rfl ?_ (called_leave rest ..) ?_ rfl
            (finished_leave rest ..).1 (by rw [at_]; rfl) (by rw [at_]; nofun)
            (not_taken_of_canCall below.1) fun _ => not_append_of_canCall below.1)⟩
          · simp [registered, leave, same]
          · simp [same]
  | @enter i p free valid =>
      refine ⟨_, _, _, h.quiet (.of_turn (.advance p :: s.frames i) rfl rfl rfl rfl rfl id ?_
        (not_taken_of_canCall free) nofun nofun)⟩
      exact List.countP_cons_of_neg (by simp [dispatches])
  | @reach i p rest at_ =>
      have below := Nested.rest locked.nested at_
      split
      · exact ⟨_, _, _, h.quiet (.of_turn rest rfl rfl rfl rfl rfl id (by rw [at_]; rfl)
          (by rw [at_]; nofun) (not_taken_of_canCall below.1)
          fun _ => not_append_of_canCall below.1)⟩
      · rename_i fresh
        by_cases same : p = phase
        · subst same
          exact ⟨_, _, _, h.reach at_ (Bool.eq_false_iff.2 fresh)⟩
        · refine ⟨_, _, _, h.quiet (.of_turn (.scan p :: rest) rfl rfl rfl rfl ?_ id ?_
            (by rw [at_]; nofun) nofun nofun)⟩
          · exact Function.update_of_ne (Ne.symm same) ..
          · rw [at_]
            simp [dispatches, same]
  | @scan i p rest at_ unlocked =>
      have below := Nested.rest locked.nested at_
      split
      · rename_i empty
        by_cases same : p = phase
        · subst same
          exact ⟨_, _, _, h.finish locked at_ unlocked empty⟩
        · refine ⟨_, _, _, h.quiet (.of_turn rest rfl ?_ ?_ rfl rfl ?_ ?_
            (by rw [at_]; nofun) (not_taken_of_canCall below.1)
            fun _ => not_append_of_canCall below.1)⟩
          · simp [registered]
          · simp [called]
          · simp [Ne.symm same]
          · rw [at_]
            simp [dispatches, same]
      · rename_i observer observers found
        by_cases same : p = phase
        · subst same
          obtain ⟨waiting', h⟩ := h.take at_ found
          exact ⟨_, _, _, h⟩
        · refine ⟨_, _, _, h.quiet (.of_turn (.taken p observer :: rest) rfl rfl rfl
            ((takeObserver_some found).2.2 phase (Ne.symm same)) rfl id ?_
            (by rw [at_]; nofun) ?_ nofun)⟩
          · rw [at_]
            rfl
          · intro o top
            cases top
            exact same rfl
  | @call i p observer rest at_ =>
      by_cases same : p = phase
      · subst same
        exact ⟨_, _, _, h.call at_⟩
      · obtain ⟨_, _, _, own⟩ := all p
        have elsewhere := own.phase_of_taken ((own.taken observer).2 ⟨i, by rw [at_]; rfl⟩)
        refine ⟨_, _, _, h.quiet (.of_turn (.calling p :: rest) rfl ?_ ?_ rfl rfl ?_ ?_ ?_
          nofun nofun)⟩
        · simp [registered]
        · simp [called, elsewhere, same]
        · simp
        · rw [at_]
          rfl
        · rw [at_]
          intro o top
          cases top
          exact same rfl
  | @back i p rest at_ =>
      exact ⟨_, _, _, h.quiet (.of_turn (.scan p :: rest) rfl rfl rfl rfl rfl id
        (by rw [at_]; rfl) (by rw [at_]; nofun) nofun nofun)⟩

theorem Reachable.serves (reachable : Reachable s) (phase : Int) :
    ∃ dispatcher flight waiting, Serves s phase dispatcher flight waiting := by
  induction reachable generalizing phase with
  | refl =>
      refine ⟨none, none, [], ?_⟩
      constructor <;> simp [start, registered, called]
  | tail before step ih => exact step.serves (Reachable.locked before) ih

/-! ## The calls that have returned -/

omit [DecidableEq ι] in
theorem eq_of_nodup_filterMap {α β : Type} {f : α → Option β} {l : List α}
    (distinct : (l.filterMap f).Nodup) {a b : α} {c : β} (left : a ∈ l) (right : b ∈ l)
    (fa : f a = some c) (fb : f b = some c) : a = b := by
  induction l with
  | nil => cases left
  | cons first rest ih =>
      have later : (rest.filterMap f).Nodup := by
        rw [List.filterMap_cons] at distinct
        split at distinct
        · exact distinct
        · exact (List.nodup_cons.1 distinct).2
      have not_again {x : α} (member : x ∈ rest) (fx : f x = some c) : f first ≠ some c := by
        intro here
        rw [List.filterMap_cons_some here] at distinct
        exact (List.nodup_cons.1 distinct).1 (List.mem_filterMap.2 ⟨x, member, fx⟩)
      rcases List.mem_cons.1 left with rfl | inside
      · rcases List.mem_cons.1 right with rfl | right
        · rfl
        · exact absurd fa (not_again right fb)
      · rcases List.mem_cons.1 right with rfl | right
        · exact absurd fb (not_again inside fa)
        · exact ih later inside right

/-- A step returns from one call of `ml_lifecycle_on_phase` at most, the next of its thread. -/
theorem Step.returns (step : Step s t) :
    t.returnedCalls = s.returnedCalls ∧ t.calls = s.calls ∨
    ∃ i, t.returnedCalls = s.returnedCalls ++ [(i, s.calls i)] ∧
      t.calls = Function.update s.calls i (s.calls i + 1) := by
  have leave (i : ι) (frames : List (Frame ι)) (p : Int) (callback : Option Callback) (userp : Nat)
      (result : Bool) : (s.leave i frames p callback userp result).returnedCalls =
        s.returnedCalls ++ [(i, s.calls i)] := by
    simp [returnedCalls, Lifecycle.leave]
  cases step with
  | @register i p callback userp free =>
      cases callback with
      | none => exact .inr ⟨i, leave .., rfl⟩
      | some callback =>
          cases validPhase p with
          | false => exact .inr ⟨i, leave .., rfl⟩
          | true => exact .inl ⟨rfl, rfl⟩
  | @test i p callback userp rest at_ unlocked =>
      split
      · exact .inr ⟨i, leave .., rfl⟩
      · exact .inl ⟨rfl, rfl⟩
  | @append i p callback userp rest memory at_ =>
      split
      · exact .inr ⟨i, leave i rest .., rfl⟩
      · exact .inr ⟨i, leave i rest .., rfl⟩
  | enter => exact .inl ⟨rfl, rfl⟩
  | reach =>
      split
      · exact .inl ⟨rfl, rfl⟩
      · exact .inl ⟨rfl, rfl⟩
  | scan =>
      split
      · exact .inl ⟨by simp [returnedCalls], rfl⟩
      · exact .inl ⟨rfl, rfl⟩
  | call => exact .inl ⟨by simp [returnedCalls], rfl⟩
  | back => exact .inl ⟨rfl, rfl⟩

theorem Reachable.numbered (reachable : Reachable s) :
    s.returnedCalls.Nodup ∧ ∀ call ∈ s.returnedCalls, call.2 < s.calls call.1 := by
  induction reachable with
  | refl => exact ⟨List.nodup_nil, nofun⟩
  | @tail before after _ step ih =>
      obtain ⟨distinct, below⟩ := ih
      rcases step.returns with ⟨returned, calls⟩ | ⟨i, returned, calls⟩
      · rw [returned, calls]
        exact ⟨distinct, below⟩
      · rw [returned, calls]
        constructor
        · rw [List.nodup_append]
          refine ⟨distinct, by simp, ?_⟩
          intro call member new same
          rw [List.mem_singleton.1 same]
          rintro rfl
          exact Nat.lt_irrefl _ (below _ member)
        · intro call member
          rcases List.mem_append.1 member with member | member
          · have old := below call member
            by_cases own : call.1 = i
            · rw [own, Function.update_self]
              rw [own] at old
              omega
            · rwa [Function.update_of_ne own]
          · rw [List.mem_singleton.1 member]
            simp

theorem Reachable.result_unique (reachable : Reachable s) {first second : Observer ι}
    {result result' : Bool} (one : .returned first result ∈ s.events)
    (other : .returned second result' ∈ s.events) (same : first.call = second.call) :
    first = second ∧ result = result' := by
  have equal := eq_of_nodup_filterMap (Reachable.numbered reachable).1 one other
    (c := first.call) rfl (congrArg some same.symm)
  cases equal
  exact ⟨rfl, rfl⟩

theorem Step.events (step : Step s t) :
    t.events = s.events ∨ ∃ event, t.events = s.events ++ [event] := by
  cases step with
  | @register i p callback userp free =>
      cases callback with
      | none => exact .inr ⟨_, rfl⟩
      | some callback =>
          cases validPhase p with
          | false => exact .inr ⟨_, rfl⟩
          | true => exact .inl rfl
  | test =>
      split
      · exact .inr ⟨_, rfl⟩
      · exact .inl rfl
  | append =>
      split
      · exact .inr ⟨_, rfl⟩
      · exact .inr ⟨_, rfl⟩
  | enter => exact .inl rfl
  | reach => split <;> exact .inl rfl
  | scan =>
      split
      · exact .inr ⟨_, rfl⟩
      · exact .inl rfl
  | call => exact .inr ⟨_, rfl⟩
  | back => exact .inl rfl

theorem Step.one_event (step : Step s t) (phase : Int) :
    t.registered phase = s.registered phase ∨ t.called phase = s.called phase := by
  rcases step.events with same | ⟨event, same⟩
  · exact .inl (by rw [registered, registered, same])
  · rw [registered, registered, called, called, same]
    cases event <;> simp

/-! ## The result -/

theorem Reachable.called_prefix (reachable : Reachable s) (phase : Int) :
    s.called phase <+: s.registered phase := by
  obtain ⟨_, flight, waiting, serves⟩ := Reachable.serves reachable phase
  rw [serves.accepted, List.append_assoc]
  exact List.prefix_append ..

theorem Reachable.complete (reachable : Reachable s) (ended : .finished phase ∈ s.events) :
    s.called phase = s.registered phase := by
  obtain ⟨_, flight, waiting, serves⟩ := Reachable.serves reachable phase
  obtain ⟨reached, rfl⟩ := serves.finished ended
  have landed : flight = none := serves.flight_none nofun
  have empty : waiting = [] := (serves.drained reached rfl).1
  rw [serves.accepted, landed, empty]
  simp

/-- Nothing is accepted for a phase after the call that reached it has returned: it would have to be
called in the same step. -/
theorem Reachable.closed (reachable : Reachable s) (ended : .finished phase ∈ s.events)
    (later : Relation.ReflTransGen Step s t) :
    .finished phase ∈ t.events ∧ t.registered phase = s.registered phase := by
  induction later with
  | refl => exact ⟨ended, rfl⟩
  | @tail before after run step ih =>
      have still : .finished phase ∈ after.events := by
        rcases step.events with same | ⟨event, same⟩
        · rw [same]
          exact ih.1
        · rw [same]
          exact List.mem_append_left _ ih.1
      refine ⟨still, ?_⟩
      have reachable_before : Reachable before := reachable.trans run
      rcases step.one_event phase with same | same
      · exact same.trans ih.2
      · calc after.registered phase
          _ = after.called phase := (Reachable.complete (reachable_before.tail step) still).symm
          _ = before.called phase := same
          _ = before.registered phase := Reachable.complete reachable_before ih.1
          _ = s.registered phase := ih.2

/-- In every run: the calls of a phase follow its accepted registrations in their order, each with
what was registered; they are complete in every state from the return of the call that reached the
phase on; and a registration that was refused is never called. -/
theorem lifecycle_delivery (reachable : Reachable s) :
    s.returnedCalls.Nodup ∧
    (∀ phase, s.called phase <+: s.registered phase) ∧
    (∀ phase, .finished phase ∈ s.events → s.called phase = s.registered phase ∧
      ∀ t, Relation.ReflTransGen Step s t → t.registered phase = s.registered phase) ∧
    ∀ refused, .returned refused false ∈ s.events →
      ∀ phase, ∀ observer ∈ s.called phase, observer.call ≠ refused.call := by
  refine ⟨(Reachable.numbered reachable).1, Reachable.called_prefix reachable, ?_, ?_⟩
  · intro phase ended
    exact ⟨Reachable.complete reachable ended,
      fun t later => (Reachable.closed reachable ended later).2⟩
  · intro refused rejected phase observer called same
    have accepted := (mem_registered ((Reachable.called_prefix reachable phase).subset called)).2
    have result := (Reachable.result_unique reachable accepted rejected same).2
    cases result

/-- One thread registers, another reaches the phase, and its callback is refused a registration. -/
theorem lifecycle_delivery_run : ∃ s : Lifecycle Nat,
    s.events = [.returned ⟨(0, 0), 1, some 7, 3⟩ true, .called ⟨(0, 0), 1, some 7, 3⟩,
      .returned ⟨(1, 0), 1, some 8, 4⟩ false, .finished 1] ∧
    s.returnedCalls.Nodup ∧
    (∀ phase, s.called phase <+: s.registered phase) ∧
    (∀ phase, .finished phase ∈ s.events → s.called phase = s.registered phase ∧
      ∀ t, Relation.ReflTransGen Step s t → t.registered phase = s.registered phase) ∧
    ∀ refused, .returned refused false ∈ s.events →
      ∀ phase, ∀ observer ∈ s.called phase, observer.call ≠ refused.call := by
  have registered := ((Relation.ReflTransGen.single
    (Step.register (s := start) (i := 0) 1 (some 7) 3 rfl)).tail
    (Step.test (i := 0) rfl rfl)).tail (Step.append (i := 0) true rfl)
  have reached := ((registered.tail (Step.enter (i := 1) 1 rfl rfl)).tail
    (Step.reach (i := 1) rfl)).tail (Step.scan (i := 1) rfl rfl)
  have called := ((reached.tail (Step.call (i := 1) rfl)).tail
    (Step.register (i := 1) 1 (some 8) 4 rfl)).tail (Step.test (i := 1) rfl rfl)
  have finished := (called.tail (Step.back (i := 1) rfl)).tail (Step.scan (i := 1) rfl rfl)
  exact ⟨_, rfl, lifecycle_delivery finished⟩

end Yafsml.Modloader.Lifecycle
