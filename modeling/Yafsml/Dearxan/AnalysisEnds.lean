import Mathlib.Data.List.Perm.Basic
import Mathlib.Logic.Relation
import Yafsml.Dearxan.Analysis

/-!
# The analysis ends

A turn of the main loop is counted or gives a state up, and a counted turn adds one state at most.
-/

namespace Yafsml.Dearxan

/-! ## What a turn does to the states -/

/-- The stack by the numbers of its states, and what is counted. -/
structure Ledger where
  work : List Nat
  stepCount : Nat
  turns : Nat
  created : Nat
  released : List Nat

def AnalysisLoop.ledger (loop : AnalysisLoop) : Ledger :=
  ⟨loop.work.map AnalysisState.id, loop.stepCount, loop.turns, loop.created, loop.released⟩

namespace Ledger

def Owned (ledger : Ledger) : Prop := (ledger.released ++ ledger.work).Perm (List.range ledger.created)

structure Follows (before after : Ledger) : Prop where
  turns : after.turns = before.turns
  owned : before.Owned → after.Owned

/-- How the loop goes on: without a counted step a state is given up. -/
inductive Goes (before after : Ledger) : Prop
  | popped (steps : after.stepCount = before.stepCount) (work : after.work.length + 1 = before.work.length)
  | counted (steps : after.stepCount = before.stepCount + 1) (within : after.stepCount ≤ analysisMaxSteps)
      (work : after.work.length ≤ before.work.length + 1)

inductive Runs (before : Ledger) : AnalysisLoop ⊕ AnalysisEnd → Prop
  | goes {after : AnalysisLoop} (follows : before.Follows after.ledger)
      (steps : after.stepCount = before.stepCount) (work : after.ledger.work.length ≤ before.work.length + 1) :
      Runs before (.inl after)
  | ends {ending : AnalysisEnd} (follows : before.Follows ending.loop.ledger)
      (steps : ending.loop.stepCount = before.stepCount)
      (work : ending.loop.ledger.work.length ≤ before.work.length) : Runs before (.inr ending)

inductive Turns (before : Ledger) : AnalysisLoop ⊕ AnalysisEnd → Prop
  | goes {after : AnalysisLoop} (follows : before.Follows after.ledger) (goes : before.Goes after.ledger) :
      Turns before (.inl after)
  | ends {ending : AnalysisEnd} (follows : before.Follows ending.loop.ledger)
      (kept : before.stepCount ≤ ending.loop.stepCount) (steps : ending.loop.stepCount ≤ before.stepCount + 1)
      (work : ending.loop.ledger.work.length ≤ before.work.length) : Turns before (.inr ending)

variable {before : Ledger}

theorem Runs.counted {result : AnalysisLoop ⊕ AnalysisEnd}
    (runs : Runs { before with stepCount := before.stepCount + 1 } result)
    (within : before.stepCount + 1 ≤ analysisMaxSteps) : before.Turns result := by
  cases runs with
  | goes follows steps work =>
      have counted := Nat.le_trans (Nat.le_of_eq steps) within
      exact .goes ⟨follows.turns, follows.owned⟩ (.counted steps counted work)
  | ends follows steps work =>
      exact .ends ⟨follows.turns, follows.owned⟩ (Nat.le_trans (Nat.le_succ _) (Nat.le_of_eq steps.symm))
        (Nat.le_of_eq steps) work

end Ledger

open Ledger

namespace AnalysisLoop

variable {loop : AnalysisLoop} {state : AnalysisState}

def OnTop (loop : AnalysisLoop) (state : AnalysisState) : Prop :=
  (loop.work.map AnalysisState.id).head? = some state.id

theorem setTop_ledger (top : loop.OnTop state) : (loop.setTop state).ledger = loop.ledger := by
  obtain ⟨rest, work⟩ := List.head?_eq_some_iff.mp top
  have same : (loop.setTop state).work.map AnalysisState.id = loop.work.map AnalysisState.id := by
    rw [setTop, List.map_cons, List.map_tail, work, List.tail_cons]
  rw [ledger, same]
  rfl

theorem abandon_follows (loop : AnalysisLoop) : loop.ledger.Follows loop.abandon.ledger where
  turns := rfl
  owned owned := by
    change (loop.released ++ (loop.work.take 1).map _ ++ loop.work.tail.map _).Perm _
    rw [List.append_assoc, ← List.map_append, ← List.drop_one, List.take_append_drop]
    exact owned

theorem abandon_length (top : loop.OnTop state) :
    loop.abandon.ledger.work.length + 1 = loop.ledger.work.length := by
  obtain ⟨rest, work⟩ := List.head?_eq_some_iff.mp top
  change (loop.work.tail.map _).length + 1 = (loop.work.map _).length
  rw [List.map_tail, work]
  rfl

theorem abandon_turns {ledger : Ledger} (same : loop.ledger = ledger) (top : loop.OnTop state) :
    ledger.Turns (.inl loop.abandon) := by
  subst same
  exact .goes (abandon_follows loop) (.popped rfl (abandon_length top))

theorem push_runs {ledger : Ledger} (same : loop.ledger = ledger) (room : Bool) (forked : AnalysisState)
    (fresh : forked.id = loop.created) : ledger.Runs (loop.push room forked) := by
  subst same
  have grown (owned : loop.ledger.Owned) {ids : List Nat}
      (same : ids.Perm (loop.created :: (loop.released ++ loop.work.map AnalysisState.id))) :
      ids.Perm (List.range (loop.created + 1)) := by
    rw [List.range_succ]
    exact same.trans ((owned.cons _).trans (List.perm_append_singleton ..).symm)
  cases room with
  | true =>
      refine .goes ⟨rfl, fun owned => grown owned ?_⟩ rfl (Nat.le_refl _)
      rw [← fresh]
      exact List.perm_middle
  | false =>
      refine .ends ⟨rfl, fun owned => grown owned ?_⟩ rfl (Nat.le_refl _)
      change (loop.released ++ [forked.id] ++ loop.work.map AnalysisState.id).Perm _
      rw [List.append_assoc, fresh]
      exact List.perm_middle

theorem runs_setTop (top : loop.OnTop state) : loop.ledger.Runs (.inl (loop.setTop state)) := by
  have same := setTop_ledger top
  refine .goes ⟨rfl, ?_⟩ rfl ?_
  · rw [same]
    exact id
  · rw [same]
    exact Nat.le_succ _

theorem runs_stop (loop : AnalysisLoop) (fatal most : Bool) : loop.ledger.Runs (.inr ⟨loop, fatal, most⟩) :=
  .ends ⟨rfl, id⟩ rfl (Nat.le_refl _)

end AnalysisLoop

open AnalysisLoop

section Turn

variable (image : DearxanImage) (memory : TurnMemory) (decoded : Decoded) {loop : AnalysisLoop}
  {state : AnalysisState}

theorem runCmov_runs (top : loop.OnTop state) : loop.ledger.Runs (runCmov memory decoded state loop) := by
  rw [runCmov]
  split
  · exact runs_stop loop _ _
  · exact runs_setTop top
  · refine push_runs ?_ _ _ rfl
    exact @setTop_ledger _ ⟨_, _, _, state.id⟩ top

theorem runStep_runs (top : loop.OnTop state) : loop.ledger.Runs (runStep memory decoded state loop) := by
  rw [runStep]
  split
  · exact runs_stop loop _ _
  · rename_i vm stepped
    have same : loop.ledger.Runs (.inl (loop.setTop { state with vm := vm })) :=
      @runs_setTop loop { state with vm := vm } top
    dsimp only [markUnresolved]
    split
    · cases same with
      | goes follows steps work => exact .goes follows steps work
    · exact same
  · refine push_runs ?_ _ _ rfl
    exact @setTop_ledger _ ⟨_, _, _, state.id⟩ top

theorem runInstruction_runs (call : Option CallInfo) (top : loop.OnTop state) :
    loop.ledger.Runs (runInstruction image memory decoded call state loop) := by
  rw [runInstruction]
  split
  · refine .goes (abandon_follows loop) rfl ?_
    have := abandon_length top
    omega
  · split
    · exact @runs_setTop loop { state with vm := _ } top
    · split
      · exact runCmov_runs memory decoded top
      · split
        · exact @runs_setTop loop { state with vm := _ } top
        · exact runStep_runs memory decoded top

theorem countStep_turns {ledger : Ledger} (same : loop.ledger = ledger) (top : loop.OnTop state) :
    ledger.Turns (countStep image memory decoded state loop) := by
  rw [← same, ← setTop_ledger top, countStep]
  dsimp only
  split
  · exact .ends ⟨rfl, id⟩ (Nat.le_succ _) (Nat.le_refl _) (Nat.le_refl _)
  · rename_i within
    split
    · exact .ends ⟨rfl, id⟩ (Nat.le_succ _) (Nat.le_refl _) (Nat.le_refl _)
    · exact (@runInstruction_runs image memory decoded { loop.setTop state with
        stepCount := loop.stepCount + 1, scan := _ } state _ rfl).counted (Nat.not_lt.mp within)

theorem visit_turns {ledger : Ledger} (same : loop.ledger = ledger) (top : loop.OnTop state) :
    ledger.Turns (visit image memory decoded state loop) := by
  rw [visit]
  split
  · rw [visitKnown]
    dsimp only
    split
    · exact countStep_turns image memory decoded same top
    · split
      · split
        · exact @countStep_turns image memory decoded _ state.detach ledger same top
        · exact countStep_turns image memory decoded same top
      · exact abandon_turns same top
  · rw [visitNew]
    have named : loop.OnTop (if loop.isDoubleStepping then state.detach else state) := by
      split
      · exact top
      · exact top
    dsimp only
    split
    · rw [← same, ← setTop_ledger named]
      exact .ends ⟨rfl, id⟩ (Nat.le_refl _) (Nat.le_succ _) (Nat.le_refl _)
    · exact countStep_turns image memory decoded same named

theorem enterInstruction_turns {ledger : Ledger} (same : loop.ledger = ledger) (top : loop.OnTop state) :
    ledger.Turns (enterInstruction image memory decoded state loop) := by
  rw [enterInstruction]
  dsimp only
  split
  · exact abandon_turns same top
  · generalize entered : (if (state.branchCount = 1 && decoded.isCmpRax18) = true then
      { loop with badCmpRaxBranch := 2 * ignoredTestRspBranch } else loop) = loop'
    have kept : loop'.ledger = loop.ledger ∧ loop'.OnTop state := by
      rw [← entered]
      split
      · exact ⟨rfl, top⟩
      · exact ⟨rfl, top⟩
    split
    · exact abandon_turns (kept.1.trans same) kept.2
    · exact visit_turns image memory decoded (kept.1.trans same) kept.2

theorem analysisTurn_turns (env : AnalysisEnvironment) (loop : AnalysisLoop) :
    (loop.work = [] ∧ analysisTurn env image loop = .inr ⟨loop, false, false⟩) ∨
      { loop.ledger with turns := loop.turns + 1 }.Turns (analysisTurn env image loop) := by
  rw [analysisTurn]
  split
  · rename_i empty
    exact .inl ⟨empty, rfl⟩
  · rename_i state rest work
    have top (block : List LittleEndian.Word) :
        ({ loop with turns := loop.turns + 1, block := block } : AnalysisLoop).OnTop state := by
      rw [OnTop, work]
      rfl
    right
    dsimp only
    split
    · exact abandon_turns rfl (top loop.block)
    · split
      · exact enterInstruction_turns image _ _ rfl (top _)
      · exact .ends ⟨rfl, id⟩ (Nat.le_refl _) (Nat.le_succ _) (Nat.le_refl _)

end Turn

/-! ## The whole loop -/

section Loop

variable (env : AnalysisEnvironment) (image : DearxanImage)

def AnalysisLoop.size (loop : AnalysisLoop) : Nat :=
  2 * (analysisMaxSteps - loop.stepCount) + loop.work.length

theorem analysisTurn_goes {loop after : AnalysisLoop} (turn : analysisTurn env image loop = .inl after) :
    after.turns = loop.turns + 1 ∧ (loop.ledger.Owned → after.ledger.Owned) ∧
      loop.ledger.Goes after.ledger := by
  rcases analysisTurn_turns image env loop with ⟨-, ends⟩ | turns
  · cases ends.symm.trans turn
  · rw [turn] at turns
    cases turns with
    | goes follows goes =>
        refine ⟨follows.turns, fun owned => follows.owned owned, ?_⟩
        cases goes with
        | popped steps work => exact .popped steps work
        | counted steps within work => exact .counted steps within work

theorem analysisTurn_ends {loop : AnalysisLoop} {ending : AnalysisEnd}
    (turn : analysisTurn env image loop = .inr ending) :
    ending.loop.turns ≤ loop.turns + 1 ∧ (loop.ledger.Owned → ending.loop.ledger.Owned) ∧
      loop.stepCount ≤ ending.loop.stepCount ∧ ending.loop.stepCount ≤ loop.stepCount + 1 ∧
      ending.loop.work.length ≤ loop.work.length := by
  rcases analysisTurn_turns image env loop with ⟨-, ends⟩ | turns
  · cases ends.symm.trans turn
    exact ⟨Nat.le_succ _, id, Nat.le_refl _, Nat.le_succ _, Nat.le_refl _⟩
  · rw [turn] at turns
    cases turns with
    | ends follows kept steps work =>
        refine ⟨Nat.le_of_eq follows.turns, fun owned => follows.owned owned, kept, steps, ?_⟩
        simpa only [AnalysisLoop.ledger, List.length_map] using work

def analysisLoop : MeasuredLoop AnalysisLoop AnalysisEnd where
  round := analysisTurn env image
  size := AnalysisLoop.size
  shrinks loop after turn := by
    obtain ⟨-, -, goes⟩ := analysisTurn_goes env image turn
    simp only [AnalysisLoop.size]
    cases goes with
    | popped steps work =>
        simp only [AnalysisLoop.ledger, List.length_map] at steps work
        omega
    | counted steps within work =>
        simp only [AnalysisLoop.ledger, List.length_map] at steps within work
        omega

def analysisStart (start : LittleEndian.Word) : AnalysisLoop ⊕ AnalysisEnd :=
  let loop := ⟨[], .empty, [], 0, 0, sizeMax, false, .fresh, 0, 0, []⟩
  if !env.decoderInit then .inr ⟨loop, true, false⟩
  else
    match dearxanVmWriteMemory env.writeStack (dearxanVmInit (some image) start analysisInitialRsp)
        analysisInitialRsp (LittleEndian.byteOf 0x10) 8 with
    | none => .inr ⟨{ loop with created := 1, released := [0] }, true, false⟩
    | some vm => loop.push env.pushInitial ⟨vm, 0, ⟨cfgCmovDetached, false⟩, 0⟩

/-- The loop and the release of the states that it leaves. -/
def analysisRun (start : LittleEndian.Word) : AnalysisEnd :=
  let ending :=
    match analysisStart env image start with
    | .inl loop => (analysisLoop env image).run loop
    | .inr ending => ending
  { ending with loop := ending.loop.release }

def analyzeCandidate (start : LittleEndian.Word) : AnalysisOutcome :=
  let ending := analysisRun env image start
  let scan := ending.loop.scan
  if ending.fatalError || ending.maxStepsReached then .fatal
  else
    match scan.contextPopVa with
    | none => .unmatched
    | some va =>
        if isContextPop image va then .matched ⟨start, va, scan.returnGadget, encryptionResult scan⟩
        else .unmatched

/-! ## How long it takes -/

structure AnalysisLoop.Bounded (loop : AnalysisLoop) : Prop where
  steps : loop.stepCount ≤ analysisMaxSteps
  work : loop.work.length ≤ 1 + loop.stepCount
  turns : loop.turns + loop.work.length ≤ 1 + 2 * loop.stepCount
  owned : loop.ledger.Owned

structure AnalysisEnd.Bounded (ending : AnalysisEnd) : Prop where
  steps : ending.loop.stepCount ≤ analysisMaxSteps + 1
  work : ending.loop.work.length ≤ 1 + ending.loop.stepCount
  turns : ending.loop.turns ≤ 2 * analysisMaxSteps + 2
  owned : ending.loop.ledger.Owned

variable {env image}

theorem AnalysisLoop.Bounded.goes {loop after : AnalysisLoop} (bounded : loop.Bounded)
    (turn : analysisTurn env image loop = .inl after) : after.Bounded := by
  obtain ⟨turns, owned, goes⟩ := analysisTurn_goes env image turn
  obtain ⟨steps, work, took, before⟩ := bounded
  cases goes with
  | popped same left =>
      simp only [AnalysisLoop.ledger, List.length_map] at same left
      exact ⟨by omega, by omega, by omega, owned before⟩
  | counted same within grown =>
      simp only [AnalysisLoop.ledger, List.length_map] at same within grown
      exact ⟨within, by omega, by omega, owned before⟩

theorem AnalysisLoop.Bounded.ends {loop : AnalysisLoop} {ending : AnalysisEnd} (bounded : loop.Bounded)
    (turn : analysisTurn env image loop = .inr ending) : ending.Bounded := by
  obtain ⟨turns, owned, kept, steps, work⟩ := analysisTurn_ends env image turn
  obtain ⟨within, depth, took, before⟩ := bounded
  exact ⟨by omega, by omega, by omega, owned before⟩

theorem analysisStart_inl {start : LittleEndian.Word} {first : AnalysisLoop}
    (started : analysisStart env image start = .inl first) : first.Bounded := by
  unfold analysisStart at started
  dsimp only at started
  split at started
  · cases started
  · split at started
    · cases started
    · unfold AnalysisLoop.push at started
      dsimp only at started
      split at started
      · cases started
        exact ⟨Nat.zero_le _, Nat.le_refl _, Nat.le_refl _, .refl _⟩
      · cases started

theorem analysisStart_inr {start : LittleEndian.Word} {ending : AnalysisEnd}
    (started : analysisStart env image start = .inr ending) : ending.Bounded := by
  unfold analysisStart at started
  dsimp only at started
  split at started
  · cases started
    exact ⟨Nat.zero_le _, Nat.zero_le _, Nat.zero_le _, .refl _⟩
  · split at started
    · cases started
      exact ⟨Nat.zero_le _, Nat.zero_le _, Nat.zero_le _, .refl _⟩
    · unfold AnalysisLoop.push at started
      dsimp only at started
      split at started
      · cases started
      · cases started
        exact ⟨Nat.zero_le _, Nat.zero_le _, Nat.zero_le _, .refl _⟩

def Visits (env : AnalysisEnvironment) (image : DearxanImage) (start : LittleEndian.Word)
    (loop : AnalysisLoop) : Prop :=
  ∃ first, analysisStart env image start = .inl first ∧
    Relation.ReflTransGen (fun before after => analysisTurn env image before = .inl after) first loop

theorem Visits.bounded {start : LittleEndian.Word} {loop : AnalysisLoop}
    (visits : Visits env image start loop) : loop.Bounded := by
  obtain ⟨first, started, reached⟩ := visits
  induction reached with
  | refl => exact analysisStart_inl started
  | tail _ turn ih => exact ih.goes turn

theorem Visits.ends {start : LittleEndian.Word} {loop : AnalysisLoop} {ending : AnalysisEnd}
    (visits : Visits env image start loop) (turn : analysisTurn env image loop = .inr ending) :
    analysisRun env image start = { ending with loop := ending.loop.release } := by
  obtain ⟨first, started, reached⟩ := visits
  have run : (analysisLoop env image).run first = ending :=
    ((analysisLoop env image).run_reached reached).trans ((analysisLoop env image).run_inr turn)
  rw [analysisRun, started]
  dsimp only
  rw [run]

theorem analysisRun_bounded (start : LittleEndian.Word) :
    ∃ ending : AnalysisEnd, ending.Bounded ∧
      analysisRun env image start = { ending with loop := ending.loop.release } := by
  rw [analysisRun]
  cases started : analysisStart env image start with
  | inr ending => exact ⟨ending, analysisStart_inr started, rfl⟩
  | inl first =>
      refine ⟨(analysisLoop env image).run first, ?_, rfl⟩
      exact (analysisLoop env image).run_post (fun _ _ bounded turn => bounded.goes turn)
        (fun _ _ bounded turn => bounded.ends turn) (analysisStart_inl started)

/-- The analysis of a candidate ends after `2 ^ 20 + 1` counted steps at most, and releases every state. Each
turn that is not counted gives a state up or ends the loop. -/
theorem analyzeCandidate_terminates (env : AnalysisEnvironment) (image : DearxanImage)
    (start : LittleEndian.Word) :
    ((analysisRun env image start).loop.stepCount ≤ 2 ^ 20 + 1 ∧
      (analysisRun env image start).loop.turns ≤ 2 * 2 ^ 20 + 2 ∧
      (analysisRun env image start).loop.work = [] ∧
      (analysisRun env image start).loop.released.Perm
        (List.range (analysisRun env image start).loop.created)) ∧
    ∀ loop, Visits env image start loop →
      loop.stepCount ≤ 2 ^ 20 ∧ loop.work.length ≤ 1 + loop.stepCount ∧
      match analysisTurn env image loop with
      | .inl after =>
          (after.stepCount = loop.stepCount ∧ after.work.length + 1 = loop.work.length) ∨
            (after.stepCount = loop.stepCount + 1 ∧ after.work.length ≤ loop.work.length + 1)
      | .inr ending =>
          ending.loop.stepCount ≤ loop.stepCount + 1 ∧ ending.loop.work.length ≤ 1 + ending.loop.stepCount ∧
            analysisRun env image start = { ending with loop := ending.loop.release } := by
  constructor
  · obtain ⟨ending, bounded, ends⟩ := @analysisRun_bounded env image start
    rw [ends]
    exact ⟨bounded.steps, bounded.turns, rfl, bounded.owned⟩
  · intro loop visits
    have bounded := visits.bounded
    refine ⟨bounded.steps, bounded.work, ?_⟩
    cases turn : analysisTurn env image loop with
    | inl after =>
        obtain ⟨-, -, goes⟩ := analysisTurn_goes env image turn
        cases goes with
        | popped steps work => exact .inl ⟨steps, by simpa only [AnalysisLoop.ledger, List.length_map] using work⟩
        | counted steps within work =>
            exact .inr ⟨steps, by simpa only [AnalysisLoop.ledger, List.length_map] using work⟩
    | inr ending =>
        obtain ⟨-, -, -, steps, -⟩ := analysisTurn_ends env image turn
        exact ⟨steps, (bounded.ends turn).work, visits.ends turn⟩

end Loop

end Yafsml.Dearxan
