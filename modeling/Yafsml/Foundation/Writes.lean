import Mathlib.Data.List.Pairwise
import Yafsml.Foundation.LittleEndian

/-! # Writes to memory

Writes that do not meet can be made in any order, and then no byte is written twice. -/

namespace Yafsml.LittleEndian

abbrev Memory := Word → Byte

structure Write where
  address : Word
  bytes : List Byte
  deriving DecidableEq, Repr

namespace Write

def covers (w : Write) (a : Word) : Bool := (a - w.address).toNat < w.bytes.length

def apply (memory : Memory) (w : Write) : Memory := fun a =>
  if w.covers a then w.bytes.getD (a - w.address).toNat 0 else memory a

def Apart (v w : Write) : Prop := ∀ a, v.covers a = true → w.covers a = false

theorem Apart.symm {v w : Write} (apart : Apart v w) : Apart w v := by
  intro a covered
  cases other : v.covers a with
  | false => rfl
  | true => rw [apart a other] at covered; cases covered

instance : Std.Symm Apart := ⟨fun _ _ => Apart.symm⟩

theorem Apart.apply_comm {v w : Write} (apart : Apart v w) (memory : Memory) :
    apply (apply memory v) w = apply (apply memory w) v := by
  funext a
  unfold apply
  by_cases first : v.covers a = true
  · simp [first, apart a first]
  · simp [first]

def all (ws : List Write) (memory : Memory) : Memory := ws.foldl apply memory

theorem all_perm {ws ws' : List Write} (apart : ws.Pairwise Apart) (perm : ws.Perm ws') (memory : Memory) :
    all ws memory = all ws' memory := by
  apply perm.foldl_eq'
  intro v v_among w w_among memory
  by_cases same : v = w
  · rw [same]
  · exact (apart.forall v_among w_among same).apply_comm memory

theorem all_uncovered {ws : List Write} {memory : Memory} {a : Word}
    (free : ∀ w ∈ ws, w.covers a = false) : all ws memory a = memory a := by
  induction ws generalizing memory with
  | nil => rfl
  | cons w ws ih =>
      show all ws (apply memory w) a = memory a
      rw [ih fun v among => free v (.tail _ among), apply, free w (.head _)]
      rfl

theorem all_covered {ws : List Write} (apart : ws.Pairwise Apart) {w : Write} (among : w ∈ ws)
    {memory : Memory} {a : Word} (covered : w.covers a = true) :
    all ws memory a = w.bytes.getD (a - w.address).toNat 0 := by
  induction ws generalizing memory with
  | nil => cases among
  | cons v ws ih =>
      obtain ⟨from_first, rest⟩ := List.pairwise_cons.mp apart
      show all ws (apply memory v) a = _
      rcases List.mem_cons.mp among with rfl | later
      · rw [all_uncovered fun u among => from_first u among a covered, apply, covered]
        rfl
      · exact ih rest later

theorem covered_once {ws : List Write} (apart : ws.Pairwise Apart) (a : Word) :
    ws.countP (·.covers a) ≤ 1 := by
  induction ws with
  | nil => exact Nat.zero_le 1
  | cons w ws ih =>
      obtain ⟨from_first, apart⟩ := List.pairwise_cons.mp apart
      rw [List.countP_cons]
      split_ifs with covered
      · have others : ws.countP (·.covers a) = 0 := by
          apply List.countP_eq_zero.mpr
          intro v among
          rw [from_first v among a covered]
          decide
        omega
      · exact ih apart

end Write

end Yafsml.LittleEndian
