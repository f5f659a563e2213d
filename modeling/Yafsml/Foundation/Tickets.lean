import Mathlib.Data.List.Perm.Basic
import Mathlib.Data.List.Nodup
import Mathlib.Data.List.Range
import Mathlib.Logic.Function.Basic

/-!
# Tickets

Workers draw numbers from a counter and work on the number that they hold. Every number that was drawn is
held by one worker or was worked on, once.
-/

structure Tickets (ι : Type*) where
  next : Nat
  holds : ι → Option Nat
  finished : List Nat

namespace Tickets

variable {ι : Type*}

def start (ι : Type*) : Tickets ι := ⟨0, fun _ => none, []⟩

structure Sound (tickets : Tickets ι) : Prop where
  nodup : tickets.finished.Nodup
  drawn : ∀ n ∈ tickets.finished, n < tickets.next
  held : ∀ i n, tickets.holds i = some n → n < tickets.next ∧ n ∉ tickets.finished
  apart : ∀ i j n, tickets.holds i = some n → tickets.holds j = some n → i = j
  placed : ∀ n < tickets.next, n ∈ tickets.finished ∨ ∃ i, tickets.holds i = some n

theorem sound_start : Sound (start ι) where
  nodup := List.nodup_nil
  drawn := nofun
  held := nofun
  apart := nofun
  placed _ before := absurd before (Nat.not_lt_zero _)

section Turns

variable [DecidableEq ι]

def draw (i : ι) (tickets : Tickets ι) : Tickets ι :=
  ⟨tickets.next + 1, Function.update tickets.holds i (some tickets.next), tickets.finished⟩

def finish (i : ι) (n : Nat) (tickets : Tickets ι) : Tickets ι :=
  ⟨tickets.next, Function.update tickets.holds i none, tickets.finished ++ [n]⟩

variable {tickets : Tickets ι} {i : ι}

theorem Sound.draw (sound : Sound tickets) (idle : tickets.holds i = none) : Sound (tickets.draw i) where
  nodup := sound.nodup
  drawn n member := Nat.lt_succ_of_lt (sound.drawn n member)
  held j n held := by
    change Function.update tickets.holds i _ j = some n at held
    rw [Function.update_apply] at held
    split_ifs at held with here
    · cases held
      exact ⟨Nat.lt_succ_self _, fun member => absurd (sound.drawn _ member) (Nat.lt_irrefl _)⟩
    · exact ⟨Nat.lt_succ_of_lt (sound.held j n held).1, (sound.held j n held).2⟩
  apart j k n first second := by
    change Function.update tickets.holds i _ j = some n at first
    change Function.update tickets.holds i _ k = some n at second
    rw [Function.update_apply] at first second
    split_ifs at first second with here there there
    · exact here.trans there.symm
    · cases first
      exact absurd (sound.held k _ second).1 (Nat.lt_irrefl _)
    · cases second
      exact absurd (sound.held j _ first).1 (Nat.lt_irrefl _)
    · exact sound.apart j k n first second
  placed n before := by
    rcases Nat.lt_succ_iff_lt_or_eq.mp before with earlier | rfl
    · refine (sound.placed n earlier).imp_right fun ⟨j, held⟩ => ⟨j, ?_⟩
      have other : j ≠ i := by
        rintro rfl
        rw [idle] at held
        cases held
      exact (Function.update_of_ne other ..).trans held
    · exact .inr ⟨i, Function.update_self ..⟩

theorem Sound.finish (sound : Sound tickets) {n : Nat} (works : tickets.holds i = some n) :
    Sound (tickets.finish i n) where
  nodup := by
    refine List.nodup_append.mpr ⟨sound.nodup, List.nodup_singleton n, ?_⟩
    rintro m member k same rfl
    rw [List.mem_singleton.mp same] at member
    exact (sound.held i n works).2 member
  drawn m member := by
    rcases List.mem_append.mp member with earlier | here
    · exact sound.drawn m earlier
    · rw [List.mem_singleton.mp here]
      exact (sound.held i n works).1
  held j m held := by
    change Function.update tickets.holds i none j = some m at held
    rw [Function.update_apply] at held
    split_ifs at held with here
    obtain ⟨before, fresh⟩ := sound.held j m held
    refine ⟨before, fun member => ?_⟩
    rcases List.mem_append.mp member with earlier | same
    · exact fresh earlier
    · rw [List.mem_singleton.mp same] at held
      exact here (sound.apart j i n held works)
  apart j k m first second := by
    change Function.update tickets.holds i none j = some m at first
    change Function.update tickets.holds i none k = some m at second
    rw [Function.update_apply] at first second
    split_ifs at first second
    exact sound.apart j k m first second
  placed m before := by
    rcases sound.placed m before with finished | ⟨j, held⟩
    · exact .inl (List.mem_append_left _ finished)
    · by_cases here : j = i
      · subst here
        cases works.symm.trans held
        exact .inl (List.mem_append_right _ List.mem_cons_self)
      · exact .inr ⟨j, (Function.update_of_ne here ..).trans held⟩

omit [DecidableEq ι] in
theorem Sound.all_finished (sound : Sound tickets) (idle : ∀ i, tickets.holds i = none) :
    tickets.finished.Perm (List.range tickets.next) := by
  rw [List.perm_ext_iff_of_nodup sound.nodup List.nodup_range]
  intro n
  rw [List.mem_range]
  refine ⟨sound.drawn n, fun before => (sound.placed n before).resolve_right ?_⟩
  rintro ⟨i, held⟩
  rw [idle i] at held
  cases held

end Turns

end Tickets
