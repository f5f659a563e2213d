import Yafsml.Extdll.Order

/-!
# Promotion and demotion

Neither pass touches names, dependencies or positions. The promotion ends when early entries need no
normal one. The demotion is a single sweep: it moves an entry to the worker exactly when a chain of
dependencies leads to a deferred entry, of whose links only the last may point to a later entry.
-/

namespace Yafsml.Extdll
open Relation

/-! ## What the passes leave alone -/

def shape (dlls : List Extdll) : List (String × List String) :=
  dlls.map fun dll => (dll.name, dll.after)

section Shape

variable {a b : List Extdll} (same : shape a = shape b)

include same

theorem shape_length : a.length = b.length := by
  simpa [shape] using congrArg List.length same

theorem shape_getElem? {i : Nat} {dll : Extdll} (located : a[i]? = some dll) :
    ∃ dll', b[i]? = some dll' ∧ dll'.name = dll.name ∧ dll'.after = dll.after := by
  have there : (shape b)[i]? = some (dll.name, dll.after) := by
    rw [← same, shape, List.getElem?_map, located, Option.map_some]
  rw [shape, List.getElem?_map] at there
  obtain ⟨dll', located', pair⟩ := Option.map_eq_some_iff.mp there
  exact ⟨dll', located', congrArg Prod.fst pair, congrArg Prod.snd pair⟩

theorem extdllIndexByName_congr (name : String) :
    extdllIndexByName a name = extdllIndexByName b name := by
  have byShape : ∀ dlls : List Extdll, extdllIndexByName dlls name =
      (shape dlls).findIdx? fun entry => entry.1 == name := by
    intro dlls
    rw [shape, List.findIdx?_map]
    rfl
  rw [byShape, byShape, same]

theorem depends_congr {x d : Nat} : Depends a x d ↔ Depends b x d := by
  have half : ∀ {a b : List Extdll}, shape a = shape b → Depends a x d → Depends b x d := by
    rintro a b same ⟨different, dll, located, name, member, found⟩
    obtain ⟨dll', located', _, after⟩ := shape_getElem? same located
    rw [extdllIndexByName_congr same] at found
    exact ⟨different, dll', located', name, after ▸ member, found⟩
  exact ⟨half same, half same.symm⟩

end Shape

def DeferredAt (dlls : List Extdll) (i : Nat) : Prop :=
  ∃ dll, dlls[i]? = some dll ∧ dll.stage.isDeferred

theorem shape_modify (dlls : List Extdll) (i : Nat) (f : Extdll → Extdll)
    (kept : ∀ dll, (f dll).name = dll.name ∧ (f dll).after = dll.after) :
    shape (dlls.modify i f) = shape dlls := by
  apply List.ext_getElem?
  intro j
  simp only [shape, List.getElem?_map, List.getElem?_modify]
  cases dlls[j]? with
  | none => rfl
  | some dll =>
      by_cases here : i = j
      · simp [here, kept dll]
      · simp [here]

/-! ## Promotion -/

inductive PromoteStep (s : List Extdll × Bool) : List Extdll × Bool → Prop
  | early {i : Nat} {dll : Extdll} :
      s.1[i]? = some dll → dll.stage = .normal → PromoteStep s (setStage s.1 i .early, true)

def Promotes : List Extdll × Bool → List Extdll × Bool → Prop := ReflTransGen PromoteStep

structure Promoted (dlls promoted : List Extdll) : Prop where
  shape : shape promoted = shape dlls
  entries : ∀ i : Nat, promoted[i]? = dlls[i]? ∨ ∃ dll, dlls[i]? = some dll ∧ dll.stage = .normal ∧
    promoted[i]? = some { dll with stage := .early }

theorem Promoted.trans {a b c : List Extdll} (first : Promoted a b) (second : Promoted b c) :
    Promoted a c where
  shape := second.shape.trans first.shape
  entries i := by
    rcases second.entries i with same | ⟨dll, located, normal, promoted⟩
    · rw [same]
      exact first.entries i
    · rcases first.entries i with same | ⟨dll', located', normal', promoted'⟩
      · exact .inr ⟨dll, same ▸ located, normal, promoted⟩
      · rw [promoted', Option.some.injEq] at located
        rw [← located] at normal
        cases normal

theorem Promoted.deferredAt {dlls promoted : List Extdll} (h : Promoted dlls promoted) (i : Nat) :
    DeferredAt promoted i ↔ DeferredAt dlls i := by
  rcases h.entries i with same | ⟨dll, located, normal, early⟩
  · simp only [DeferredAt, same]
  · have before : Stage.normal.isDeferred = false := rfl
    have after : Stage.early.isDeferred = false := rfl
    simp [DeferredAt, located, early, normal, before, after]

def normals (dlls : List Extdll) : Nat := dlls.countP fun dll => dll.stage = .normal

theorem normals_setStage {dlls : List Extdll} {i : Nat} {dll : Extdll} (located : dlls[i]? = some dll)
    (normal : dll.stage = .normal) : normals (setStage dlls i .early) < normals dlls := by
  unfold setStage normals
  induction dlls generalizing i with
  | nil => cases located
  | cons first rest ih =>
      cases i with
      | zero =>
          cases located
          simp [normal]
      | succ i =>
          rw [List.modify_succ_cons, List.countP_cons, List.countP_cons]
          have := ih located
          omega

theorem PromoteStep.promoted {s t : List Extdll × Bool} (step : PromoteStep s t) :
    Promoted s.1 t.1 ∧ normals t.1 < normals s.1 ∧ t.2 = true := by
  cases step with
  | @early i dll located normal =>
      refine ⟨⟨shape_modify _ _ _ fun _ => ⟨rfl, rfl⟩, fun j => ?_⟩,
        normals_setStage located normal, rfl⟩
      by_cases here : i = j
      · subst here
        exact .inr ⟨dll, located, normal, by simp [setStage, located]⟩
      · exact .inl (by simp [setStage, here])

theorem Promotes.promoted {s t : List Extdll × Bool} (run : Promotes s t) :
    Promoted s.1 t.1 ∧ (t = s ∨ normals t.1 < normals s.1 ∧ t.2 = true) := by
  induction run with
  | refl => exact ⟨⟨rfl, fun _ => .inl rfl⟩, .inl rfl⟩
  | tail _ step ih =>
      obtain ⟨promoted, fewer, flag⟩ := step.promoted
      refine ⟨ih.1.trans promoted, .inr ⟨?_, flag⟩⟩
      rcases ih.2 with rfl | ⟨fewer', _⟩
      · exact fewer
      · exact fewer.trans fewer'

section Fold

variable {α : Type} {f : List Extdll × Bool → α → List Extdll × Bool}
  (steps : ∀ s x, Promotes s (f s x))

include steps

theorem promotes_foldl (s : List Extdll × Bool) (l : List α) : Promotes s (l.foldl f s) := by
  induction l generalizing s with
  | nil => exact .refl
  | cons x rest ih => exact (steps s x).trans (ih (f s x))

theorem foldl_quiet {s : List Extdll × Bool} {l : List α} (quiet : (l.foldl f s).2 = false) :
    ∀ x ∈ l, f s x = s := by
  induction l generalizing s with
  | nil => simp
  | cons x rest ih =>
      have unset : (f s x).2 = false := by
        rcases (promotes_foldl steps (f s x) rest).promoted.2 with same | ⟨_, flag⟩
        · rw [← same]
          exact quiet
        · rw [List.foldl_cons, flag] at quiet
          cases quiet
      have still : f s x = s := by
        rcases (steps s x).promoted.2 with same | ⟨_, flag⟩
        · exact same
        · rw [unset] at flag
          cases flag
      rw [List.foldl_cons, still] at quiet
      exact List.forall_mem_cons.mpr ⟨still, ih quiet⟩

end Fold

theorem promoteName_promotes (s : List Extdll × Bool) (name : String) :
    Promotes s (promoteName s name) := by
  unfold promoteName
  split
  · rename_i d _
    split
    · rename_i normal
      obtain ⟨dll, located, stage⟩ := Option.map_eq_some_iff.mp normal
      exact .single (.early located stage)
    · exact .refl
  · exact .refl

theorem promoteEntry_promotes (s : List Extdll × Bool) (i : Nat) : Promotes s (promoteEntry s i) := by
  unfold promoteEntry
  split
  · split
    · exact promotes_foldl promoteName_promotes s _
    · exact .refl
  · exact .refl

def PrerequisitesEarly (dlls : List Extdll) : Prop :=
  ∀ (i : Nat) (dll : Extdll), dlls[i]? = some dll → dll.stage = .early → ∀ name ∈ dll.after, ∀ d,
    extdllIndexByName dlls name = some d → stageAt dlls d ≠ some .normal

theorem promotePass_quiet {dlls : List Extdll} (quiet : (promotePass dlls).2 = false) :
    (promotePass dlls).1 = dlls ∧ PrerequisitesEarly dlls := by
  have still := foldl_quiet promoteEntry_promotes quiet
  constructor
  · rcases (promotes_foldl promoteEntry_promotes (dlls, false) (List.range dlls.length)).promoted.2
      with same | ⟨_, flag⟩
    · exact congrArg Prod.fst same
    · rw [promotePass, flag] at quiet
      cases quiet
  · intro i dll located early name member d found normal
    have entry := still i (List.mem_range.mpr (List.getElem?_eq_some_iff.mp located).1)
    simp only [promoteEntry, located, early, if_true] at entry
    have named := foldl_quiet promoteName_promotes (congrArg Prod.snd entry) name member
    simp only [promoteName, found, normal, if_true] at named
    exact absurd (congrArg Prod.snd named) (by simp)

theorem promoteLoop_promoted {fuel : Nat} {dlls : List Extdll} (enough : normals dlls < fuel) :
    Promoted dlls (promoteLoop fuel dlls) ∧ PrerequisitesEarly (promoteLoop fuel dlls) := by
  induction fuel generalizing dlls with
  | zero => omega
  | succ fuel ih =>
      have run := promotes_foldl promoteEntry_promotes (dlls, false) (List.range dlls.length)
      rw [promoteLoop]
      split
      · rename_i promoted pass
        rw [← promotePass, pass] at run
        obtain ⟨step, same | ⟨fewer, _⟩⟩ := run.promoted
        · cases same
        · have left : normals promoted < fuel := by
            simp only at fewer
            omega
          obtain ⟨rest, early⟩ := ih left
          exact ⟨step.trans rest, early⟩
      · rename_i promoted pass
        obtain ⟨same, early⟩ := promotePass_quiet (by rw [pass])
        rw [pass] at same
        subst same
        exact ⟨⟨rfl, fun _ => .inl rfl⟩, early⟩

theorem promote_promoted (dlls : List Extdll) :
    Promoted dlls (promote dlls) ∧ PrerequisitesEarly (promote dlls) := by
  refine promoteLoop_promoted ?_
  have := List.countP_le_length (p := fun dll : Extdll => dll.stage = .normal) (l := dlls)
  rw [normals]
  omega

/-! ## Demotion -/

theorem latestStage_cases (dlls : List Extdll) (after : List String) :
    (latestStage dlls after = .normal ∨ (latestStage dlls after).isDeferred) ∧
      (latestStage dlls after ≠ .normal ↔
        ∃ name ∈ after, ∃ d, extdllIndexByName dlls name = some d ∧ DeferredAt dlls d) := by
  let raise : Stage → String → Stage := fun latest name =>
    ((extdllIndexByName dlls name).bind (stageAt dlls)).elim latest fun stage =>
      if stage.value ≤ latest.value then latest else stage
  have fold : latestStage dlls after = after.foldl raise .normal := by
    rw [latestStage]
    congr 1
    funext latest name
    cases found : (extdllIndexByName dlls name).bind (stageAt dlls) with
    | none => simp [raise, found]
    | some stage => simp [raise, found]
  have raised (latest : Stage) (bound : Stage.normal.value ≤ latest.value) (name : String) :
      Stage.normal.value ≤ (raise latest name).value ∧ (raise latest name ≠ .normal ↔
        latest ≠ .normal ∨ ∃ d, extdllIndexByName dlls name = some d ∧ DeferredAt dlls d) := by
    cases found : extdllIndexByName dlls name with
    | none => simp [raise, found, bound]
    | some d =>
        cases located : dlls[d]? with
        | none => simp [raise, found, stageAt, located, DeferredAt, bound]
        | some dll =>
            cases latest <;> cases stage : dll.stage <;>
              simp_all [raise, stageAt, DeferredAt, Stage.isDeferred, Stage.value]
  have folded : ∀ (names : List String) (latest : Stage), Stage.normal.value ≤ latest.value →
      Stage.normal.value ≤ (names.foldl raise latest).value ∧ (names.foldl raise latest ≠ .normal ↔
        latest ≠ .normal ∨
          ∃ name ∈ names, ∃ d, extdllIndexByName dlls name = some d ∧ DeferredAt dlls d) := by
    intro names
    induction names with
    | nil => simp
    | cons name rest ih =>
        intro latest bound
        obtain ⟨bound', first⟩ := raised latest bound name
        obtain ⟨bound'', others⟩ := ih (raise latest name) bound'
        refine ⟨bound'', ?_⟩
        rw [List.foldl_cons, others, first]
        simp [or_assoc]
  obtain ⟨bound, iff⟩ := folded after .normal le_rfl
  rw [← fold] at bound iff
  refine ⟨?_, by simpa using iff⟩
  cases h : latestStage dlls after <;> simp [h, Stage.value, Stage.isDeferred] at bound ⊢

/-- A chain of dependencies leads to a deferred entry, and all of its links but the last lead to
entries configured earlier. -/
inductive Behind (dlls : List Extdll) : Nat → Prop
  | own {x : Nat} : DeferredAt dlls x → Behind dlls x
  | direct {x d : Nat} : Depends dlls x d → DeferredAt dlls d → Behind dlls x
  | earlier {x d : Nat} : Depends dlls x d → d < x → Behind dlls d → Behind dlls x

theorem behind_congr {a b : List Extdll} (same : shape a = shape b)
    (deferred : ∀ i, DeferredAt a i ↔ DeferredAt b i) (i : Nat) : Behind a i ↔ Behind b i := by
  have half : ∀ {a b : List Extdll}, shape a = shape b → (∀ i, DeferredAt a i ↔ DeferredAt b i) →
      Behind a i → Behind b i := by
    intro a b same deferred behind
    induction behind with
    | own here => exact .own ((deferred _).mp here)
    | direct depends there => exact .direct ((depends_congr same).mp depends) ((deferred _).mp there)
    | earlier depends before _ ih => exact .earlier ((depends_congr same).mp depends) before ih
  exact ⟨half same deferred, half same.symm fun i => (deferred i).symm⟩

/-- The sweep after its first `k` entries. -/
structure Swept (dlls : List Extdll) (k : Nat) (now : List Extdll) : Prop where
  shape : shape now = shape dlls
  ahead : ∀ i : Nat, k ≤ i → now[i]? = dlls[i]?
  entries : ∀ i : Nat, now[i]? = dlls[i]? ∨ ∃ dll stage, dlls[i]? = some dll ∧
    dll.stage.isDeferred = false ∧ stage.isDeferred = true ∧
    now[i]? = some { dll with stage, delayMs := 0 }
  swept : ∀ i < k, DeferredAt now i ↔ Behind dlls i

theorem Swept.deferredAt {dlls now : List Extdll} {k i : Nat} (swept : Swept dlls k now)
    (deferred : DeferredAt dlls i) : DeferredAt now i := by
  rcases swept.entries i with same | ⟨dll, stage, _, _, late, moved⟩
  · simpa only [DeferredAt, same] using deferred
  · exact ⟨_, moved, late⟩

theorem Swept.behind_iff {dlls now : List Extdll} {k : Nat} (swept : Swept dlls k now) :
    Behind dlls k ↔ DeferredAt dlls k ∨ ∃ d, Depends dlls k d ∧ DeferredAt now d := by
  constructor
  · intro behind
    cases behind with
    | own here => exact .inl here
    | direct depends there => exact .inr ⟨_, depends, swept.deferredAt there⟩
    | earlier depends before behind =>
        exact .inr ⟨_, depends, (swept.swept _ before).mpr behind⟩
  · rintro (here | ⟨d, depends, there⟩)
    · exact .own here
    · by_cases before : d < k
      · exact .earlier depends before ((swept.swept d before).mp there)
      · refine .direct depends ?_
        simpa only [DeferredAt, swept.ahead d (by omega)] using there

theorem Swept.demoteEntry {dlls now : List Extdll} {k : Nat} (inside : k < dlls.length)
    (swept : Swept dlls k now) : Swept dlls (k + 1) (demoteEntry now k) := by
  obtain ⟨dll, located⟩ : ∃ dll, dlls[k]? = some dll := ⟨_, List.getElem?_eq_getElem inside⟩
  have here : now[k]? = some dll := by rw [swept.ahead k le_rfl, located]
  have own : DeferredAt dlls k ↔ dll.stage.isDeferred := by simp [DeferredAt, located]
  have trigger : latestStage now dll.after ≠ .normal ↔
      ∃ name ∈ dll.after, ∃ d, extdllIndexByName now name = some d ∧ DeferredAt now d :=
    (latestStage_cases now dll.after).2
  unfold Extdll.demoteEntry
  simp only [here]
  split
  · rename_i stays
    refine ⟨swept.shape, fun i later => swept.ahead i (by omega), swept.entries, fun i before => ?_⟩
    rcases Nat.lt_succ_iff_lt_or_eq.mp before with before | rfl
    · exact swept.swept i before
    · rw [swept.behind_iff]
      have same : DeferredAt now i ↔ DeferredAt dlls i := by
        simp only [DeferredAt, swept.ahead i le_rfl]
      constructor
      · exact fun deferred => .inl (same.mp deferred)
      · rintro (deferred | ⟨d, ⟨_, dll', located', name, member, found⟩, deferred⟩)
        · exact same.mpr deferred
        · rw [located, Option.some.injEq] at located'
          rcases stays with deferred' | latest
          · exact same.mpr (own.mpr deferred')
          · rw [← extdllIndexByName_congr swept.shape] at found
            exact absurd latest (trigger.mpr ⟨name, located' ▸ member, d, found, deferred⟩)
  · rename_i moves
    rw [not_or, Bool.not_eq_true] at moves
    obtain ⟨main, latest⟩ := moves
    have late := (latestStage_cases now dll.after).1.resolve_left latest
    let ride : Extdll → Extdll := fun dll' =>
      { dll' with stage := latestStage now dll.after, delayMs := 0 }
    have moved (i : Nat) : (now.modify k ride)[i]? = if k = i then some (ride dll) else now[i]? := by
      by_cases same : k = i
      · subst same
        simp [here]
      · simp [same]
    refine ⟨?_, fun i later => ?_, fun i => ?_, fun i before => ?_⟩
    · exact (shape_modify now k ride fun _ => ⟨rfl, rfl⟩).trans swept.shape
    · rw [moved, if_neg (by omega), swept.ahead i (by omega)]
    · rw [moved]
      split
      · rename_i same
        exact .inr ⟨dll, _, same ▸ located, main, late, rfl⟩
      · exact swept.entries i
    · unfold DeferredAt
      rw [moved]
      split
      · rename_i same
        subst same
        obtain ⟨name, member, d, found, deferred⟩ := trigger.mp latest
        rw [extdllIndexByName_congr swept.shape] at found
        have other : k ≠ d := by
          rintro rfl
          obtain ⟨dll', located', late'⟩ := deferred
          rw [here, Option.some.injEq] at located'
          rw [← located', main] at late'
          cases late'
        refine iff_of_true ⟨_, rfl, late⟩ (swept.behind_iff.mpr (.inr ⟨d, ?_, deferred⟩))
        exact ⟨other, dll, located, name, member, found⟩
      · exact swept.swept i (by omega)

theorem demote_swept (dlls : List Extdll) : Swept dlls dlls.length (demote dlls) := by
  have upTo : ∀ k ≤ dlls.length, Swept dlls k ((List.range k).foldl demoteEntry dlls) := by
    intro k
    induction k with
    | zero => exact fun _ => ⟨rfl, fun _ _ => rfl, fun _ => .inl rfl, by simp⟩
    | succ k ih =>
        intro inside
        rw [List.range_succ, List.foldl_append]
        exact (ih (by omega)).demoteEntry inside
  exact upTo dlls.length le_rfl

theorem demote_deferredAt (dlls : List Extdll) (i : Nat) :
    DeferredAt (demote dlls) i ↔ Behind dlls i := by
  have swept := demote_swept dlls
  by_cases inside : i < dlls.length
  · exact swept.swept i inside
  · have gone : dlls[i]? = none := List.getElem?_eq_none (by omega)
    refine iff_of_false ?_ ?_
    · rintro ⟨dll, located, _⟩
      rw [swept.ahead i (by omega), gone] at located
      cases located
    · intro behind
      cases behind with
      | own here =>
          obtain ⟨dll, located, _⟩ := here
          rw [gone] at located
          cases located
      | direct depends _ => exact inside depends.lt.1
      | earlier depends _ _ => exact inside depends.lt.1

end Yafsml.Extdll
