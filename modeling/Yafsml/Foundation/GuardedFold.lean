import Mathlib.Data.List.Basic

/-!
# A fold that gives up

Each element is checked against the state before it is taken in, and the first one that fails ends the
fold.
-/

namespace Yafsml.GuardedFold

variable {σ α : Type*} (bad : σ → α → Bool) (step : σ → α → σ)

def fold : σ → List α → Option σ
  | s, [] => some s
  | s, a :: rest => if bad s a then none else fold (step s a) rest

/-- Some element fails when all before it were taken in. -/
def Fails (s : σ) (items : List α) : Prop :=
  ∃ before a after, items = before ++ a :: after ∧ bad (before.foldl step s) a = true

variable {bad step}

theorem fails_cons {s : σ} {a : α} {rest : List α} :
    Fails bad step s (a :: rest) ↔ bad s a = true ∨ Fails bad step (step s a) rest := by
  constructor
  · rintro ⟨before, b, after, split, failed⟩
    cases before with
    | nil =>
        obtain ⟨rfl, rfl⟩ := List.cons.inj split
        exact .inl failed
    | cons first before =>
        obtain ⟨rfl, rfl⟩ := List.cons.inj split
        exact .inr ⟨before, b, after, rfl, failed⟩
  · rintro (failed | ⟨before, b, after, rfl, failed⟩)
    · exact ⟨[], a, rest, rfl, failed⟩
    · exact ⟨a :: before, b, after, rfl, failed⟩

theorem fold_eq_none_iff {s : σ} {items : List α} :
    fold bad step s items = none ↔ Fails bad step s items := by
  induction items generalizing s with
  | nil =>
      simp only [fold, reduceCtorEq, false_iff]
      rintro ⟨before, a, after, split, -⟩
      exact absurd split.symm (by simp)
  | cons a rest ih =>
      rw [fold, fails_cons]
      cases failed : bad s a with
      | true => simp
      | false => simp [ih]

theorem fold_eq_some {s s' : σ} {items : List α} (done : fold bad step s items = some s') :
    s' = items.foldl step s := by
  induction items generalizing s with
  | nil => exact (Option.some.inj done).symm
  | cons a rest ih =>
      rw [fold] at done
      split at done
      · cases done
      · exact ih done

theorem fold_invariant {P : σ → Prop} {s s' : σ} {items : List α}
    (keeps : ∀ a ∈ items, ∀ s, bad s a = false → P s → P (step s a)) (start : P s)
    (done : fold bad step s items = some s') : P s' := by
  induction items generalizing s with
  | nil =>
      cases done
      exact start
  | cons a rest ih =>
      rw [fold] at done
      split at done
      · cases done
      · rename_i good
        have kept := keeps a List.mem_cons_self s (by simpa using good) start
        exact ih (fun b among => keeps b (List.mem_cons_of_mem _ among)) kept done

theorem fold_append {s : σ} {items more : List α} :
    fold bad step s (items ++ more) = (fold bad step s items).bind fun s' => fold bad step s' more := by
  induction items generalizing s with
  | nil => rfl
  | cons a rest ih =>
      rw [List.cons_append, fold, fold]
      split
      · rfl
      · exact ih

end Yafsml.GuardedFold
