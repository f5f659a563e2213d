import Yafsml.Patches.ZipHandles

/-! # The lifetime of ZIP files

The references of a file are the entries of the table and the operations that hold it, whatever the
threads do in whatever order. -/

namespace Yafsml.Patches

open FiniteMap Pending

/-! ## What an action holds -/

/-- A reference that the action gives back or hands to the table. -/
def holds (f : FileId) : Action → ℤ
  | .release g | .openInsert g _ _ => if g = f then 1 else 0
  | _ => 0

def leaves : Action → ℤ
  | .leave => 1
  | _ => 0

theorem holds_nonneg (f : FileId) (a : Action) : 0 ≤ holds f a := by
  cases a <;> simp only [holds, le_refl] <;> split_ifs <;> decide

theorem leaves_nonneg (a : Action) : 0 ≤ leaves a := by
  cases a <;> simp [leaves]

/-- The file that an action works on under a reference that is given back later. -/
def Action.uses : Action → Option FileId
  | .use f | .duplicate f _ _ | .duplicateInsert f _ _ => some f
  | _ => none

def Action.inside : Action → Bool
  | .openFile _ | .openInsert _ _ _ | .use _ | .duplicate _ _ _ | .duplicateInsert _ _ _ | .release _ => true
  | _ => false

/-- What is inside of an operation is followed by its end, and a file that is used by its release. -/
def Covered : List Action → Prop
  | [] => True
  | a :: rest =>
      (a.inside = true → .leave ∈ rest) ∧ (∀ f, a.uses = some f → .release f ∈ rest) ∧ Covered rest

theorem Covered.cons {a : Action} {rest : List Action} (covered : Covered rest)
    (ended : a.inside = true → .leave ∈ rest) (released : ∀ f, a.uses = some f → .release f ∈ rest) :
    Covered (a :: rest) := ⟨ended, released, covered⟩

theorem Covered.outside {a : Action} {rest : List Action} (covered : Covered rest)
    (outside : a.inside = false) (unused : a.uses = none) : Covered (a :: rest) :=
  covered.cons (by simp [outside]) (by simp [unused])

theorem covered_releases (files : List FileId) {rest : List Action} (ended : Action.leave ∈ rest)
    (covered : Covered rest) : Covered (files.map .release ++ rest) := by
  induction files with
  | nil => exact covered
  | cons f files ih => exact ih.cons (fun _ => List.mem_append_right _ ended) (by simp [Action.uses])

theorem zipHandleInsert_stale {stored : Bool} {s s' : Shared} {handle : Handle} {file : FileId}
    {access : Dword} {stale : List FileId}
    (inserted : zipHandleInsert stored s handle file access = some (s', stale)) :
    ∃ table, s.handles = some table ∧ s.accepting = true ∧
      s' = { s with
        handles := some (table.insert handle ⟨file, access⟩)
        handleCount := s.handleCount + if table.lookup handle = none then 1 else 0 } ∧
      stale = (table.lookup handle).toList.map ZipHandle.file := by
  unfold zipHandleInsert at inserted
  cases held : s.handles with
  | none =>
      rw [held] at inserted
      cases inserted
  | some table =>
      rw [held] at inserted
      simp only at inserted
      split_ifs at inserted with refused
      simp only [Bool.or_eq_true, Bool.not_eq_true', not_or, Bool.not_eq_false] at refused
      refine ⟨table, rfl, refused.1, ?_⟩
      cases found : table.lookup handle with
      | none =>
          rw [found] at inserted
          cases inserted
          exact ⟨by simp, rfl⟩
      | some stale =>
          rw [found] at inserted
          cases inserted
          exact ⟨by simp, rfl⟩

theorem perform_covered (w : World) (s : Shared) {a : Action} {rest : List Action}
    (covered : Covered (a :: rest)) : Covered ((perform w s a).2 ++ rest) := by
  obtain ⟨ended, released, covered⟩ := covered
  cases a with
  | openAccept r =>
      simp only [perform]
      split_ifs
      · exact covered
      · simpa [Covered, Action.inside, Action.uses] using covered
  | openFile r =>
      simp only [perform]
      split_ifs
      · exact covered
      · exact covered.cons (fun _ => ended rfl) (by simp [Action.uses])
      · exact covered.cons (fun _ => ended rfl) (by simp [Action.uses])
  | openInsert f r handle =>
      have back : Covered ([.release f] ++ rest) := covered_releases [f] (ended rfl) covered
      simp only [perform]
      split_ifs
      · exact back
      · exact back
      · split
        · exact covered_releases _ (ended rfl) covered
        · exact back
  | getCount handle purpose | getAccepting handle purpose =>
      simp only [perform]
      split_ifs
      · exact covered
      · exact covered.outside rfl rfl
  | getLocked handle purpose =>
      simp only [perform]
      cases s.table.lookup handle with
      | none => exact covered
      | some entry =>
          cases purpose with
          | use => simpa [Purpose.actions, Covered, Action.inside, Action.uses] using covered
          | duplicate r =>
              simp only [Purpose.actions]
              split_ifs <;> simpa [Covered, Action.inside, Action.uses] using covered
  | use f => exact covered
  | duplicate f sourceAccess r =>
      simp only [perform]
      cases r.granted sourceAccess with
      | none => exact covered
      | some access =>
          cases w.duplicated with
          | false => exact covered
          | true => exact ⟨fun _ => ended rfl, fun g uses => released g uses, covered⟩
  | duplicateInsert f access handle =>
      simp only [perform]
      split
      · exact covered_releases _ (ended rfl) covered
      · exact covered
  | closeCount handle =>
      simp only [perform]
      split_ifs
      · exact covered
      · exact covered.outside rfl rfl
  | closeLocked handle =>
      simp only [perform]
      cases s.table.lookup handle with
      | none => exact covered
      | some entry =>
          cases w.closed with
          | false => simpa [Covered, Action.inside, Action.uses] using covered
          | true => simpa [Covered, Action.inside, Action.uses] using covered
  | release f => exact covered
  | leave => simpa [perform, Covered, Action.inside, Action.uses] using covered
  | leaveCheck =>
      simp only [perform]
      split_ifs
      · exact covered
      · simpa [Covered, Action.inside, Action.uses] using covered
  | leaveWake => exact covered

/-! ## What an action owes -/

def entries (s : Shared) (f : FileId) : ℤ := tally (fun entry => entry.file = f) s.table

def size (s : Shared) : ℤ := tally (fun _ => true) s.table

theorem references_modify {s : Shared} {g : FileId} {change : ZipFile → ZipFile} (n : Int)
    (changes : ∀ file, (change file).references = file.references + n) (old : g < s.files.length)
    (f : FileId) :
    Shared.references { s with files := s.files.modify g change } f =
      s.references f + if g = f then n else 0 := by
  unfold Shared.references
  rw [List.getElem?_modify]
  split_ifs with here
  · subst here
    rw [List.getElem?_eq_getElem old]
    simp [changes]
  · simp

theorem references_addReference {s : Shared} {g : FileId} (old : g < s.files.length) (f : FileId) :
    (s.addReference g).references f = s.references f + if g = f then 1 else 0 :=
  references_modify 1 (fun _ => rfl) old f

theorem references_release {s : Shared} {g : FileId} (old : g < s.files.length) (f : FileId) :
    (s.release g).references f = s.references f - if g = f then 1 else 0 := by
  refine (references_modify (-1) (fun _ => rfl) old f).trans ?_
  split_ifs <;> rfl

theorem references_append (s : Shared) (file : ZipFile) (f : FileId) :
    Shared.references { s with files := s.files ++ [file] } f =
      s.references f + if s.files.length = f then file.references else 0 := by
  unfold Shared.references
  rcases Nat.lt_trichotomy f s.files.length with old | rfl | beyond
  · rw [List.getElem?_append_left old, if_neg (by omega), add_zero]
  · simp
  · rw [List.getElem?_eq_none (by simp; omega), List.getElem?_eq_none (by omega), if_neg (by omega)]
    rfl

theorem zipHandleInsert_frame {stored : Bool} {s s' : Shared} {handle : Handle} {file : FileId}
    {access : Dword} {stale : List FileId}
    (inserted : zipHandleInsert stored s handle file access = some (s', stale)) :
    s'.files = s.files ∧ s'.activeOperations = s.activeOperations ∧ s'.accepting = s.accepting ∧
      s'.manager = s.manager ∧ worth leaves (stale.map .release) = 0 := by
  obtain ⟨table, _, _, rfl, rfl⟩ := zipHandleInsert_stale inserted
  cases table.lookup handle <;> simp [leaves]

theorem zipHandleInsert_entries {stored : Bool} {s s' : Shared} {handle : Handle} {file : FileId}
    {access : Dword} {stale : List FileId}
    (inserted : zipHandleInsert stored s handle file access = some (s', stale)) (f : FileId) :
    entries s' f + worth (holds f) (stale.map .release) = entries s f + if file = f then 1 else 0 := by
  obtain ⟨table, held, _, rfl, rfl⟩ := zipHandleInsert_stale inserted
  have counted := tally_insert (fun entry => decide (entry.file = f)) table handle ⟨file, access⟩
  simp only [entries, Shared.table, held, Option.getD_some]
  cases found : table.lookup handle with
  | none =>
      rw [found] at counted
      simp only [share, Option.elim_none, decide_eq_true_eq] at counted
      simp only [Option.toList_none, List.map_nil, worth_nil]
      split_ifs at counted ⊢ <;> omega
  | some old =>
      rw [found] at counted
      simp only [share, Option.elim_some, decide_eq_true_eq] at counted
      simp only [Option.toList_some, List.map_cons, List.map_nil, worth_cons, worth_nil, holds]
      split_ifs at counted ⊢ <;> omega

theorem zipHandleInsert_size {stored : Bool} {s s' : Shared} {handle : Handle} {file : FileId}
    {access : Dword} {stale : List FileId}
    (inserted : zipHandleInsert stored s handle file access = some (s', stale)) :
    s'.handleCount - size s' = s.handleCount - size s := by
  obtain ⟨table, held, _, rfl, rfl⟩ := zipHandleInsert_stale inserted
  have counted := tally_insert (fun _ => true) table handle ⟨file, access⟩
  simp only [size, Shared.table, held, Option.getD_some]
  cases found : table.lookup handle with
  | none =>
      rw [found] at counted
      simp only [share, Option.elim_none] at counted
      simp only [if_true] at counted ⊢
      omega
  | some old =>
      rw [found] at counted
      simp only [share, Option.elim_some] at counted
      simp only [if_true] at counted
      simp
      omega

/-- What one turn does to the counts of a file, of the operations and of the table. -/
structure Balanced (s s' : Shared) (a : Action) (new : List Action) : Prop where
  files : s.files.length ≤ s'.files.length
  owed : ∀ f, s'.references f - entries s' f - worth (holds f) new =
    s.references f - entries s f - holds f a
  active : s'.activeOperations - worth leaves new = s.activeOperations - leaves a
  counted : s'.handleCount - size s' = s.handleCount - size s

theorem Balanced.same {s : Shared} {a : Action} {new : List Action}
    (held : ∀ f, worth (holds f) new = holds f a) (left : worth leaves new = leaves a) :
    Balanced s s a new :=
  ⟨le_rfl, fun f => by rw [held f], by rw [left], rfl⟩

theorem worth_purpose (w : Action → ℤ) (entry : ZipHandle) (purpose : Purpose)
    (free : ∀ a, a.uses = some entry.file ∨ (∃ handle, a = .closeCount handle) → w a = 0) :
    worth w (purpose.actions entry) = 0 := by
  cases purpose with
  | use => simp [Purpose.actions, free (.use entry.file) (.inl rfl)]
  | duplicate r =>
      have first := free (.duplicate entry.file entry.access r) (.inl rfl)
      have last := free (.closeCount r.source) (.inr ⟨_, rfl⟩)
      simp only [Purpose.actions]
      split_ifs <;> simp [first, last]

theorem initTable_frame (initialized : Bool) (s : Shared) :
    (initTable initialized s).table = s.table ∧ (initTable initialized s).files = s.files ∧
      (initTable initialized s).handleCount = s.handleCount ∧
      (initTable initialized s).accepting = s.accepting ∧
      (initTable initialized s).activeOperations = s.activeOperations ∧
      (initTable initialized s).manager = s.manager := by
  unfold initTable
  split_ifs with first
  · have missing : s.handles = none := by simpa using (Bool.and_eq_true_iff.mp first).1
    simp [Shared.table, missing]
  · simp

theorem Balanced.newFile {s : Shared} {file : ZipFile} {a : Action} {new : List Action}
    (one : file.references = 1) (held : ∀ f, worth (holds f) new = if s.files.length = f then 1 else 0)
    (free : ∀ f, holds f a = 0) (left : worth leaves new = leaves a) :
    Balanced s { s with files := s.files ++ [file] } a new := by
  refine ⟨by simp, fun f => ?_, by simp [left], rfl⟩
  change _ - entries s f - _ = _
  rw [references_append, held f, free f, one]
  omega

theorem Balanced.acquire {s : Shared} {entry : ZipHandle} {a : Action} {new : List Action}
    (old : entry.file < s.files.length) (free : ∀ f, holds f a = 0) (outside : leaves a = 0)
    (held : ∀ f, worth (holds f) new = if entry.file = f then 1 else 0) (left : worth leaves new = 1) :
    Balanced s { s.addReference entry.file with activeOperations := s.activeOperations + 1 } a new := by
  refine ⟨by simp [Shared.addReference], fun f => ?_, by simp [left, outside], rfl⟩
  change (s.addReference entry.file).references f - entries s f - _ = _
  rw [references_addReference old, held f, free f]
  omega

theorem Balanced.erase {s : Shared} {entry : ZipHandle} {handle : Handle} {a : Action}
    (found : s.table.lookup handle = some entry) (free : ∀ f, holds f a = 0) (outside : leaves a = 0) :
    Balanced s { s with
        handles := s.handles.map (·.erase handle), handleCount := s.handleCount - 1
        activeOperations := s.activeOperations + 1 } a [.release entry.file, .leave] := by
  have table (s : Shared) : Shared.table { s with handles := s.handles.map (·.erase handle) } =
      s.table.erase handle := by
    unfold Shared.table
    cases s.handles <;> rfl
  refine ⟨le_rfl, fun f => ?_, by rw [outside]; simp [leaves], ?_⟩
  · have counted := tally_erase (fun entry => decide (entry.file = f)) s.table handle
    rw [found, ← table s] at counted
    simp only [share, Option.elim_some, decide_eq_true_eq] at counted
    change s.references f - (tally (fun entry => decide (entry.file = f)) (Shared.table
      { s with handles := s.handles.map (·.erase handle) }) : ℤ) - _ = s.references f -
        (tally (fun entry => decide (entry.file = f)) s.table : ℤ) - _
    rw [free f]
    simp only [worth_cons, worth_nil, holds]
    split_ifs at counted ⊢ <;> omega
  · have counted := tally_erase (fun _ => true) s.table handle
    rw [found, ← table s] at counted
    simp only [share, Option.elim_some, if_true] at counted
    change s.handleCount - 1 - (tally (fun _ => true) (Shared.table
      { s with handles := s.handles.map (·.erase handle) }) : ℤ) = s.handleCount -
        (tally (fun _ => true) s.table : ℤ)
    omega

theorem perform_balanced (w : World) {s : Shared} {a : Action}
    (named : ∀ f, a.uses = some f ∨ 0 < holds f a → f < s.files.length)
    (listed : ∀ handle entry, s.table.lookup handle = some entry → entry.file < s.files.length) :
    Balanced s (perform w s a).1 a (perform w s a).2 := by
  cases a with
  | openAccept r =>
      simp only [perform]
      split_ifs
      · exact .same (fun f => rfl) rfl
      · exact ⟨le_rfl, fun f => by simp [holds]; rfl, by simp [leaves], rfl⟩
  | openFile r =>
      simp only [perform]
      split_ifs
      · exact .same (fun f => rfl) rfl
      · exact .newFile rfl (fun f => by simp [holds]) (fun f => rfl) rfl
      · exact .newFile rfl (fun f => by simp [holds]) (fun f => rfl) rfl
  | openInsert file r handle =>
      have back (f : FileId) : worth (holds f) [.release file] = holds f (.openInsert file r handle) :=
        add_zero _
      obtain ⟨table, files, count, _, active, _⟩ := initTable_frame w.initialized s
      have begun : Balanced s (initTable w.initialized s) (.openInsert file r handle) [.release file] := by
        refine ⟨by rw [files], fun f => ?_, by rw [active]; rfl, by rw [count, size, table]; rfl⟩
        rw [back f, Shared.references, files, entries, table]
        rfl
      simp only [perform]
      split_ifs
      · exact .same back rfl
      · exact begun
      · cases inserted : zipHandleInsert w.stored (initTable w.initialized s) handle file
            (fileAccess r.access) with
        | none => exact begun
        | some done =>
            obtain ⟨s', stale⟩ := done
            obtain ⟨files', active', _, _, free⟩ := zipHandleInsert_frame inserted
            refine ⟨by rw [files', files], fun f => ?_, ?_, ?_⟩
            · have counted := zipHandleInsert_entries inserted f
              have before : entries (initTable w.initialized s) f = entries s f := by rw [entries, table]; rfl
              have same : s'.references f = s.references f := by rw [Shared.references, files', files]; rfl
              simp only [holds]
              omega
            · rw [active', active, free]
              rfl
            · have sized := zipHandleInsert_size inserted
              rw [sized, count, size, table]
              rfl
  | getCount handle purpose | getAccepting handle purpose | closeCount handle =>
      simp only [perform]
      split_ifs <;> exact .same (fun f => rfl) rfl
  | getLocked handle purpose =>
      simp only [perform]
      cases found : s.table.lookup handle with
      | none => exact .same (fun f => rfl) rfl
      | some entry =>
          have free (w : Action → ℤ) (unused : ∀ a : Action, a.uses = some entry.file ∨
              (∃ handle, a = .closeCount handle) → w a = 0) :
              worth w (purpose.actions entry ++ [.release entry.file, .leave]) =
                w (.release entry.file) + w .leave := by
            rw [worth_append, worth_purpose w entry purpose unused]
            simp
          refine .acquire (listed handle entry found) (fun f => rfl) rfl (fun f => ?_) ?_
          · rw [free]
            · simp [holds]
            · rintro a (used | ⟨_, rfl⟩)
              · cases a <;> first | rfl | cases used
              · rfl
          · rw [free]
            · rfl
            · rintro a (used | ⟨_, rfl⟩)
              · cases a <;> first | rfl | cases used
              · rfl
  | use f => exact .same (fun f => rfl) rfl
  | duplicate file sourceAccess r =>
      simp only [perform]
      cases r.granted sourceAccess with
      | none => exact .same (fun f => rfl) rfl
      | some access => cases w.duplicated <;> exact .same (fun f => rfl) rfl
  | duplicateInsert file access handle =>
      simp only [perform]
      cases inserted : zipHandleInsert w.stored s handle file access with
      | none => exact .same (fun f => rfl) rfl
      | some done =>
          obtain ⟨s', stale⟩ := done
          obtain ⟨files', active', _, _, free⟩ := zipHandleInsert_frame inserted
          refine ⟨by simp [Shared.addReference, files'], fun f => ?_, ?_, ?_⟩
          · have counted := zipHandleInsert_entries inserted f
            have old : file < s'.files.length := by
              rw [files']
              exact named file (.inl rfl)
            have same : s'.references f = s.references f := by rw [Shared.references, files']; rfl
            have more := references_addReference old f
            change (s'.addReference file).references f - entries s' f - _ = _
            simp only [holds]
            omega
          · change s'.activeOperations - _ = _
            rw [active', free]
            rfl
          · exact (zipHandleInsert_size inserted :)
  | closeLocked handle =>
      simp only [perform]
      cases found : s.table.lookup handle with
      | none => exact .same (fun f => rfl) rfl
      | some entry =>
          cases w.closed with
          | false => exact ⟨le_rfl, fun f => rfl, by simp [leaves], rfl⟩
          | true => exact .erase found (fun f => rfl) rfl
  | release file =>
      refine ⟨by simp [perform, Shared.release], fun f => ?_, rfl, rfl⟩
      change (s.release file).references f - entries s f - 0 = _
      rw [references_release (named file (.inr (by simp [holds])))]
      simp only [holds]
      omega
  | leave => exact ⟨le_rfl, fun f => rfl, by simp [perform, leaves], rfl⟩
  | leaveCheck =>
      simp only [perform]
      split_ifs <;> exact .same (fun f => rfl) rfl
  | leaveWake =>
      simp only [perform]
      split_ifs <;> exact ⟨le_rfl, fun f => rfl, rfl, rfl⟩

/-! ## Closing -/

/-- A reader is closed once when nothing refers to its file any more, and not before. -/
def ClosedOnce (s : Shared) : Prop :=
  ∀ (f : FileId) (file : ZipFile), s.files[f]? = some file → file.closed = if file.references = 0 then 1 else 0

theorem ClosedOnce.modify {s : Shared} {g : FileId} {change : ZipFile → ZipFile} (closed : ClosedOnce s)
    (kept : ∀ file : ZipFile, s.files[g]? = some file → file.closed = 0 →
      (change file).closed = if (change file).references = 0 then 1 else 0)
    (used : 0 < s.references g) : ClosedOnce { s with files := s.files.modify g change } := by
  intro f file found
  rw [List.getElem?_modify] at found
  split_ifs at found with here
  · subst here
    obtain ⟨old, located, rfl⟩ := Option.map_eq_some_iff.mp found
    apply kept old located
    rw [Shared.references, located] at used
    rw [closed g old located, if_neg]
    exact ne_of_gt used
  · exact closed f file (by simpa using found)

theorem ClosedOnce.addReference {s : Shared} {g : FileId} (closed : ClosedOnce s)
    (used : 0 < s.references g) : ClosedOnce (s.addReference g) := by
  apply closed.modify _ used
  intro file located open_
  rw [Shared.references, located] at used
  simp only [open_]
  rw [if_neg]
  simp only [Option.map_some, Option.getD_some] at used
  omega

theorem ClosedOnce.release {s : Shared} {g : FileId} (closed : ClosedOnce s) (used : 0 < s.references g) :
    ClosedOnce (s.release g) := by
  apply closed.modify _ used
  intro file located open_
  simp only [open_]

theorem ClosedOnce.append {s : Shared} {file : ZipFile} (closed : ClosedOnce s) (used : file.references = 1)
    (open_ : file.closed = 0) : ClosedOnce { s with files := s.files ++ [file] } := by
  intro f file' found
  by_cases old : f < s.files.length
  · exact closed f file' (by rwa [List.getElem?_append_left old] at found)
  · rw [List.getElem?_append_right (Nat.not_lt.mp old), List.getElem?_singleton] at found
    split_ifs at found
    cases found
    rw [used, open_, if_neg (by decide)]

theorem ClosedOnce.congr {s s' : Shared} (closed : ClosedOnce s) (same : s'.files = s.files) :
    ClosedOnce s' := by
  unfold ClosedOnce
  rw [same]
  exact closed

theorem perform_closedOnce (w : World) {s : Shared} {a : Action} (closed : ClosedOnce s)
    (named : ∀ f, a.uses = some f ∨ 0 < holds f a → 0 < s.references f)
    (listed : ∀ handle entry, s.table.lookup handle = some entry → 0 < s.references entry.file) :
    ClosedOnce (perform w s a).1 := by
  cases a with
  | openAccept r =>
      simp only [perform]
      split_ifs
      · exact closed
      · exact closed.congr rfl
  | openFile r =>
      simp only [perform]
      split_ifs
      · exact closed
      · exact closed.append rfl rfl
      · exact closed.append rfl rfl
  | openInsert file r handle =>
      have files := (initTable_frame w.initialized s).2.1
      simp only [perform]
      split_ifs
      · exact closed
      · exact closed.congr files
      · cases inserted : zipHandleInsert w.stored (initTable w.initialized s) handle file
            (fileAccess r.access) with
        | none => exact closed.congr files
        | some done => exact closed.congr ((zipHandleInsert_frame inserted).1.trans files)
  | getCount | getAccepting | closeCount | leaveCheck =>
      simp only [perform]
      split_ifs <;> exact closed
  | getLocked handle purpose =>
      simp only [perform]
      cases found : s.table.lookup handle with
      | none => exact closed
      | some entry => exact (closed.addReference (listed handle entry found)).congr rfl
  | use f => exact closed
  | duplicate file sourceAccess r =>
      simp only [perform]
      cases r.granted sourceAccess with
      | none => exact closed
      | some access => cases w.duplicated <;> exact closed
  | duplicateInsert file access handle =>
      simp only [perform]
      cases inserted : zipHandleInsert w.stored s handle file access with
      | none => exact closed
      | some done =>
          have files := (zipHandleInsert_frame inserted).1
          apply (closed.congr files).addReference
          rw [Shared.references, files]
          exact named file (.inl rfl)
  | closeLocked handle =>
      simp only [perform]
      cases s.table.lookup handle with
      | none => exact closed
      | some entry => cases w.closed <;> exact closed.congr rfl
  | release file => exact closed.release (named file (.inr (by simp [holds])))
  | leave => exact closed.congr rfl
  | leaveWake =>
      simp only [perform]
      split_ifs <;> exact closed.congr rfl

/-! ## Waiting -/

theorem perform_manager (w : World) (s : Shared) (a : Action) :
    (perform w s a).1.manager = s.manager ∨
      (a = .leaveWake ∧ s.manager = .asleep ∧ (perform w s a).1.manager = .woken) := by
  cases a with
  | leaveWake =>
      by_cases asleep : s.manager = .asleep
      · exact .inr ⟨rfl, asleep, by simp [perform, asleep]⟩
      · exact .inl (by simp [perform, asleep])
  | openInsert file r handle =>
      left
      have manager := (initTable_frame w.initialized s).2.2.2.2.2
      simp only [perform]
      split_ifs
      · rfl
      · exact manager
      · cases inserted : zipHandleInsert w.stored (initTable w.initialized s) handle file
            (fileAccess r.access) with
        | none => exact manager
        | some done => exact (zipHandleInsert_frame inserted).2.2.2.1.trans manager
  | duplicateInsert file access handle =>
      left
      simp only [perform]
      cases inserted : zipHandleInsert w.stored s handle file access with
      | none => rfl
      | some done => exact (zipHandleInsert_frame inserted).2.2.2.1
  | getLocked handle purpose | closeLocked handle =>
      left
      simp only [perform]
      cases s.table.lookup handle with
      | none => rfl
      | some entry => first | rfl | (cases w.closed <;> rfl)
  | duplicate file sourceAccess r =>
      left
      simp only [perform]
      cases r.granted sourceAccess with
      | none => rfl
      | some access => cases w.duplicated <;> rfl
  | openAccept | openFile | getCount | getAccepting | closeCount | leaveCheck =>
      left
      simp only [perform]
      split_ifs <;> rfl
  | use | release | leave => exact .inl rfl

/-- A turn does not change whether files are accepted, and makes no table while they are not. -/
theorem perform_accepting (w : World) (s : Shared) (a : Action) :
    (perform w s a).1.accepting = s.accepting ∧
      (s.accepting = false → s.handles = none → (perform w s a).1.handles = none) := by
  cases a with
  | openInsert file r handle =>
      have accepting := (initTable_frame w.initialized s).2.2.2.1
      simp only [perform]
      split_ifs with stopped
      · exact ⟨by rfl, fun _ none => none⟩
      · exact ⟨accepting, fun stopped' => by simp [stopped'] at stopped⟩
      · refine ⟨?_, fun stopped' => by simp [stopped'] at stopped⟩
        cases inserted : zipHandleInsert w.stored (initTable w.initialized s) handle file
            (fileAccess r.access) with
        | none => exact accepting
        | some done => exact (zipHandleInsert_frame inserted).2.2.1.trans accepting
  | duplicateInsert file access handle =>
      simp only [perform]
      cases inserted : zipHandleInsert w.stored s handle file access with
      | none => exact ⟨by rfl, fun _ none => none⟩
      | some done =>
          obtain ⟨table, held, accepting, _⟩ := zipHandleInsert_stale inserted
          exact ⟨(zipHandleInsert_frame inserted).2.2.1, fun stopped => by simp [accepting] at stopped⟩
  | getLocked handle purpose =>
      simp only [perform]
      cases s.table.lookup handle with
      | none => exact ⟨by rfl, fun _ none => none⟩
      | some entry => exact ⟨by rfl, fun _ none => none⟩
  | closeLocked handle =>
      simp only [perform]
      cases s.table.lookup handle with
      | none => exact ⟨by rfl, fun _ none => none⟩
      | some entry => cases w.closed <;> exact ⟨rfl, fun _ none => by simp [none]⟩
  | duplicate file sourceAccess r =>
      simp only [perform]
      cases r.granted sourceAccess with
      | none => exact ⟨by rfl, fun _ none => none⟩
      | some access => cases w.duplicated <;> exact ⟨by rfl, fun _ none => none⟩
  | openAccept | openFile | getCount | getAccepting | closeCount | leaveCheck | leaveWake =>
      simp only [perform]
      split_ifs <;> exact ⟨by rfl, fun _ none => none⟩
  | use | release | leave => exact ⟨by rfl, fun _ none => none⟩

end Yafsml.Patches
