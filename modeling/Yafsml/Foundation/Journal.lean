import Mathlib.Logic.Relation

/-!
# Undo logs

A transaction applies steps one after the other and keeps a record of each. Undoing the records,
most recent first, leads back to a state equivalent to the first one as soon as each single record
undoes its own step.
-/

namespace Journal

variable {σ ρ : Type*}

/-- `Logged step s log t`: the steps recorded in `log`, most recent first, lead from `s` to `t`. -/
inductive Logged (step : σ → ρ → σ → Prop) (s : σ) : List ρ → σ → Prop
  | nil : Logged step s [] s
  | cons {log : List ρ} {record : ρ} {t u : σ} :
      Logged step s log t → step t record u → Logged step s (record :: log) u

def rollback (undo : σ → ρ → σ) (s : σ) (log : List ρ) : σ := log.foldl undo s

theorem Logged.preserves {step : σ → ρ → σ → Prop} {invariant : σ → Prop}
    (preserved : ∀ s record t, invariant s → step s record t → invariant t)
    {s t : σ} {log : List ρ} (logged : Logged step s log t) (start : invariant s) :
    invariant t := by
  induction logged with
  | nil => exact start
  | cons _ last ih => exact preserved _ _ _ ih last

section Rollback

variable {step : σ → ρ → σ → Prop} {undo : σ → ρ → σ} {invariant : σ → Prop} {same : σ → σ → Prop}

theorem rollback_congr
    (congr : ∀ s t record, same s t → same (undo s record) (undo t record))
    (log : List ρ) {s t : σ} (related : same s t) :
    same (rollback undo s log) (rollback undo t log) := by
  induction log generalizing s t with
  | nil => exact related
  | cons record log ih => exact ih (congr s t record related)

theorem rollback_logged (refl : ∀ s, same s s)
    (trans : ∀ {s t u}, same s t → same t u → same s u)
    (congr : ∀ s t record, same s t → same (undo s record) (undo t record))
    (preserved : ∀ s record t, invariant s → step s record t → invariant t)
    (undone : ∀ s record t, invariant s → step s record t → same (undo t record) s)
    {s t : σ} {log : List ρ} (logged : Logged step s log t) (start : invariant s) :
    same (rollback undo t log) s := by
  induction logged with
  | nil => exact refl s
  | @cons log record t u before last ih =>
      have middle : invariant t := before.preserves preserved start
      have back : same (rollback undo (undo u record) log) (rollback undo t log) :=
        rollback_congr congr log (undone t record u middle last)
      exact trans back ih

end Rollback

end Journal
