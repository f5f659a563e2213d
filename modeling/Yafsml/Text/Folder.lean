import Mathlib.Data.List.DropRight
import Mathlib.Data.List.Forall2
import Yafsml.Text.Path

/-!
# Folders and their spellings

`ml_path_remove_filename`, and the ways Windows lets a program spell one disk path.
-/

namespace Yafsml

/-! ## `ml_path_remove_filename` -/

def mlPathRootLength (win : Windows) (path : WString) : Nat :=
  let (p, unc) := mlPathDosBody win path
  let offset := path.length - p.length
  if !unc then (if startsWithDrive p then offset + 3 else 0)
  else
    let server := p.takeWhile fun c => !isSeparator c
    match p.dropWhile fun c => !isSeparator c with
    | [] => 0
    | _ :: p =>
        let share := p.takeWhile fun c => !isSeparator c
        offset + server.length + 1 + share.length +
          (if (p.dropWhile fun c => !isSeparator c) ≠ [] then 1 else 0)

def mlPathRemoveFilename (win : Windows) (path : WString) : WString :=
  let root := mlPathRootLength win path
  path.take root ++
    ((path.drop root).rdropWhile fun c => !isSeparator c).rdropWhile isSeparator

/-! ## Spellings -/

def letterMarks : List WChar :=
  [WChar.backslash, WChar.slash, WChar.colon, WChar.dot, WChar.question]

/-- A case mapping takes no other character for a mark. -/
def LettersOnly (fold : WChar → WChar) : Prop :=
  ∀ mark ∈ letterMarks, ∀ c, fold c = fold mark → c = mark

/-- What the comparisons of Windows and its C runtime do: they fold letters only, and the ordinal
comparison folds the ASCII letters. -/
structure Windows.FoldsLetters (win : Windows) : Prop where
  lower : LettersOnly win.towlower
  crt : LettersOnly win.crtFold
  ordinal : LettersOnly win.ordinalFold
  ascii : ∀ a b : WChar, a < 0x80 → b < 0x80 →
    (win.ordinalFold a = win.ordinalFold b ↔ asciiLower a = asciiLower b)

def SameChar (fold : WChar → WChar) (c d : WChar) : Prop :=
  isSeparator c = isSeparator d ∧ (isSeparator c = false → fold c = fold d)

abbrev Spells (fold : WChar → WChar) (spelling text : WString) : Prop :=
  List.Forall₂ (SameChar fold) spelling text

/-- What may stand in front of the DOS or UNC part of a disk path: nothing or the two separators of a
UNC name, or an extended or device prefix, with either separator. -/
inductive DosPrefix (win : Windows) : Bool → WString → Prop
  | drive : DosPrefix win false []
  | device {a b q c : WChar} (first : isSeparator a = true) (second : isSeparator b = true)
      (kind : q = WChar.question ∨ q = WChar.dot) (third : isSeparator c = true) :
      DosPrefix win false [a, b, q, c]
  | share {a b : WChar} (first : isSeparator a = true) (second : isSeparator b = true) :
      DosPrefix win true [a, b]
  | deviceShare {a b q c d : WChar} {name : WString} (first : isSeparator a = true)
      (second : isSeparator b = true) (kind : q = WChar.question ∨ q = WChar.dot)
      (third : isSeparator c = true) (unc : name.map win.crtFold = (wide "UNC").map win.crtFold)
      (fourth : isSeparator d = true) : DosPrefix win true ([a, b, q, c] ++ name ++ [d])

/-- The DOS or UNC part of a fully qualified path: a drive and its root, or a server and what it
shares. -/
def Qualified (unc : Bool) (body : WString) : Prop :=
  if unc then
    ∃ server mark rest, body = server ++ mark :: rest ∧ isSeparator mark = true ∧
      (∀ c ∈ server, isSeparator c = false) ∧ server ≠ [] ∧ server ≠ [WChar.dot] ∧
      server ≠ [WChar.question]
  else startsWithDrive body = true

def NamedServer (body : WString) : Prop :=
  (body.takeWhile fun c => !isSeparator c) ∉ [[], [WChar.dot], [WChar.question]]

/-- As `Qualified`, where a server may stand alone. -/
def AbsoluteBody (unc : Bool) (body : WString) : Prop :=
  if unc then NamedServer body else startsWithDrive body = true

def endsWithSeparator (path : WString) : Bool := path.getLast?.any isSeparator

theorem asciiLower_lettersOnly : LettersOnly asciiLower := by
  have marks : ∀ mark ∈ letterMarks, asciiLower mark = mark ∧ (mark.toNat < 65 ∨ mark.toNat = 92) := by
    intro mark member
    simp only [letterMarks, List.mem_cons, List.not_mem_nil, or_false] at member
    rcases member with rfl | rfl | rfl | rfl | rfl <;> exact ⟨rfl, by decide⟩
  intro mark member c same
  obtain ⟨kept, outside⟩ := marks mark member
  rw [kept] at same
  by_cases upper : 65 ≤ c ∧ c ≤ 90
  · obtain ⟨shifted, bounds⟩ := asciiLower_of_upper upper
    rw [same] at shifted
    omega
  · rwa [asciiLower, if_neg upper] at same

theorem asciiWindows_foldsLetters : asciiWindows.FoldsLetters :=
  ⟨asciiLower_lettersOnly, asciiLower_lettersOnly, asciiLower_lettersOnly, fun _ _ _ _ => Iff.rfl⟩

variable {win : Windows} {fold : WChar → WChar} {unc : Bool}

theorem SameChar.refl (c : WChar) : SameChar fold c c := ⟨rfl, fun _ => rfl⟩

theorem Spells.refl (text : WString) : Spells fold text text :=
  List.forall₂_same.mpr fun c _ => SameChar.refl c

theorem SameChar.mark (letters : LettersOnly fold) {mark c : WChar} (member : mark ∈ letterMarks)
    (other : isSeparator mark = false) : SameChar fold c mark ↔ c = mark := by
  constructor
  · intro same
    exact letters mark member c (same.2 (same.1.trans other))
  · rintro rfl
    exact .refl c

theorem SameChar.mark_left (letters : LettersOnly fold) {mark c : WChar}
    (member : mark ∈ letterMarks) (other : isSeparator mark = false) :
    SameChar fold mark c ↔ c = mark := by
  constructor
  · intro same
    exact letters mark member c (same.2 other).symm
  · rintro rfl
    exact .refl c

/-! ## The body of a spelling -/

theorem startsWithDrive_append {body : WString} (drive : startsWithDrive body = true)
    (rest : WString) : startsWithDrive (body ++ rest) = true := by
  match body, drive with
  | _ :: _ :: _ :: _, drive => exact drive

theorem Qualified.append {body : WString} (qualified : Qualified unc body) (rest : WString) :
    Qualified unc (body ++ rest) := by
  cases unc with
  | false => exact startsWithDrive_append qualified rest
  | true =>
      obtain ⟨server, mark, more, rfl, separator, whole, names⟩ := qualified
      exact ⟨server, mark, more ++ rest, by simp, separator, whole, names⟩

theorem forall₂_append_inv {α β : Type} {R : α → β → Prop} {whole : List α} {xs ys : List β}
    (related : List.Forall₂ R whole (xs ++ ys)) :
    ∃ front back, whole = front ++ back ∧ List.Forall₂ R front xs ∧ List.Forall₂ R back ys :=
  ⟨_, _, (List.take_append_drop xs.length whole).symm, List.forall₂_take_append _ _ _ related,
    List.forall₂_drop_append _ _ _ related⟩

theorem Spells.separators {front text : WString} (spelled : Spells fold front text)
    (whole : ∀ c ∈ text, isSeparator c = false) : ∀ c ∈ front, isSeparator c = false := by
  induction spelled with
  | nil => nofun
  | cons same _ ih =>
      intro c member
      rcases List.mem_cons.mp member with rfl | later
      · rw [same.1]
        exact whole _ List.mem_cons_self
      · exact ih (fun c inside => whole c (List.mem_cons_of_mem _ inside)) c later

theorem Spells.mark (letters : LettersOnly fold) {mark : WChar} (member : mark ∈ letterMarks)
    (other : isSeparator mark = false) {text : WString} (spelled : Spells fold [mark] text) :
    text = [mark] := by
  cases spelled with
  | cons same rest =>
      cases rest
      rw [(SameChar.mark_left letters member other).mp same]

theorem Qualified.spells {front body : WString} (letters : LettersOnly fold)
    (qualified : Qualified unc body) (spelled : Spells fold front body) : Qualified unc front := by
  cases unc with
  | false =>
      have drive : startsWithDrive body = true := qualified
      match body, front, spelled, drive with
      | _ :: colon :: mark :: _, _ :: colon' :: mark' :: _, .cons _ (.cons same (.cons same' _)),
          drive =>
          simp only [startsWithDrive, Bool.and_eq_true, beq_iff_eq] at drive
          obtain ⟨rfl, separator⟩ := drive
          have here := (SameChar.mark letters (by decide) (by decide)).mp same
          show (colon' == WChar.colon && isSeparator mark') = true
          rw [here, same'.1, separator]
          rfl
  | true =>
      obtain ⟨server, mark, rest, rfl, separator, whole, present, dot, question⟩ := qualified
      obtain ⟨server', tail, rfl, same, more⟩ := forall₂_append_inv spelled
      cases more with
      | @cons mark' _ rest' _ here _ =>
          refine ⟨server', mark', rest', rfl, here.1.trans separator, Spells.separators same whole, ?_, ?_, ?_⟩
          · rintro rfl
            cases same
            exact present rfl
          · rintro rfl
            exact dot (Spells.mark letters (by decide) (by decide) same)
          · rintro rfl
            exact question (Spells.mark letters (by decide) (by decide) same)

theorem wcsnicmpPrefix_drive (letters : LettersOnly win.crtFold) {body : WString}
    (drive : startsWithDrive body = true) : win.wcsnicmpPrefix body (wide "UNC") = false := by
  match body, drive with
  | a :: colon :: mark :: rest, drive =>
      simp only [startsWithDrive, Bool.and_eq_true, beq_iff_eq] at drive
      obtain ⟨rfl, -⟩ := drive
      have different : win.crtFold WChar.colon ≠ win.crtFold 78 := by
        intro same
        exact absurd (letters WChar.colon (by decide) 78 same.symm) (by decide)
      rw [Windows.wcsnicmpPrefix, beq_eq_false_iff_ne]
      intro same
      rw [show wide "UNC" = [85, 78, 67] from rfl] at same
      simp only [List.map_cons, List.length_cons, List.length_nil, List.take_succ_cons,
        List.cons.injEq] at same
      exact different same.2.1

theorem kind_question_or_dot {q : WChar} (kind : q = WChar.question ∨ q = WChar.dot) :
    (q == WChar.question || q == WChar.dot) = true := by
  rcases kind with rfl | rfl
  · rfl
  · rfl

theorem Qualified.absoluteBody {body : WString} (qualified : Qualified unc body) :
    AbsoluteBody unc body := by
  cases unc with
  | false => exact qualified
  | true =>
      obtain ⟨server, mark, rest, rfl, separator, whole, present, dot, question⟩ := qualified
      have front : ((server ++ mark :: rest).takeWhile fun c => !isSeparator c) = server := by
        rw [List.takeWhile_append_of_pos (by simpa using whole),
          List.takeWhile_cons_of_neg (by simp [separator]), List.append_nil]
      show (List.takeWhile _ _) ∉ _
      rw [front]
      simp [present, dot, question]

theorem DosPrefix.split {front body : WString} (letters : LettersOnly win.crtFold)
    (prefixed : DosPrefix win unc front) (absolute : AbsoluteBody unc body) :
    mlPathDosBody win (front ++ body) = (body, unc) := by
  cases prefixed with
  | drive =>
      have drive : startsWithDrive body = true := absolute
      match body, drive with
      | a :: colon :: mark :: rest, drive =>
          simp only [startsWithDrive, Bool.and_eq_true, beq_iff_eq] at drive
          have other : isSeparator colon = false := by
            rw [drive.1]
            decide
          show (if (isSeparator a && isSeparator colon) = true then _ else _) = _
          rw [other, Bool.and_false]
          rfl
  | device first second kind third =>
      have drive : startsWithDrive body = true := absolute
      have name := wcsnicmpPrefix_drive letters drive
      simp [mlPathDosBody, first, second, third, name, drive, kind_question_or_dot kind]
  | share first second =>
      have named : NamedServer body := absolute
      match body, named with
      | [], _ => simp [mlPathDosBody, first, second]
      | [c], _ => simp [mlPathDosBody, first, second]
      | c :: d :: more, named =>
          by_cases mark : isSeparator d = true
          · have alone : c ≠ WChar.dot ∧ c ≠ WChar.question := by
              constructor
              · rintro rfl
                exact named (by simp [mark])
              · rintro rfl
                exact named (by simp [mark, show isSeparator WChar.question = false from rfl])
            simp [mlPathDosBody, first, second, alone]
          · simp [mlPathDosBody, first, second, mark]
  | @deviceShare a b q c d name first second kind third unc fourth =>
      have length : name.length = 3 := by
        have same := congrArg List.length unc
        rwa [List.length_map, List.length_map] at same
      match name, length, unc with
      | [u, n, x], _, unc =>
          have matched : win.wcsnicmpPrefix (u :: n :: x :: d :: body) (wide "UNC") = true := by
            rw [Windows.wcsnicmpPrefix, ← unc]
            simp [show (wide "UNC").length = 3 from rfl]
          simp [mlPathDosBody, first, second, third, fourth, matched, kind_question_or_dot kind]

theorem DosPrefix.body {front body : WString} (letters : LettersOnly win.crtFold)
    (prefixed : DosPrefix win unc front) (qualified : Qualified unc body) :
    mlPathDosBody win (front ++ body) = (body, unc) :=
  prefixed.split letters qualified.absoluteBody

theorem dosPrefix_of_body {path body : WString} (split : mlPathDosBody win path = (body, unc)) :
    ∃ front, DosPrefix win unc front ∧ path = front ++ body := by
  unfold mlPathDosBody at split
  split at split
  · rename_i a b rest
    split at split
    · rename_i separators
      rw [Bool.and_eq_true] at separators
      split at split
      · rename_i c d body'
        split at split
        · rename_i kind
          rw [Bool.and_eq_true, Bool.or_eq_true, beq_iff_eq, beq_iff_eq] at kind
          split at split
          · rename_i named
            rw [Bool.and_eq_true] at named
            cases split
            obtain ⟨name, mark⟩ := named
            cases tail : body'.drop 3 with
            | nil =>
                rw [tail] at mark
                cases mark
            | cons m rest =>
                have whole := List.take_append_drop 3 body'
                rw [tail] at whole mark
                have rest_eq : body'.drop 4 = rest := by
                  rw [show (4 : Nat) = 3 + 1 from rfl, ← List.drop_drop, tail, List.drop_one,
                    List.tail_cons]
                refine ⟨[a, b, c, d] ++ body'.take 3 ++ [m], .deviceShare separators.1 separators.2
                  kind.1 kind.2 ?_ (by simpa using mark), ?_⟩
                · rw [Windows.wcsnicmpPrefix, beq_iff_eq] at name
                  rw [List.map_take]
                  exact name
                · rw [rest_eq]
                  simp [whole]
          · cases split
            split
            · exact ⟨[a, b, c, d], .device separators.1 separators.2 kind.1 kind.2, rfl⟩
            · exact ⟨[], .drive, rfl⟩
        · cases split
          exact ⟨[a, b], .share separators.1 separators.2, rfl⟩
      · cases split
        exact ⟨[a, b], .share separators.1 separators.2, rfl⟩
    · cases split
      exact ⟨[], .drive, rfl⟩
  · cases split
    exact ⟨[], .drive, rfl⟩

/-! ## The folder of a file -/

theorem mlPathRootLength_drive {front body : WString} (letters : LettersOnly win.crtFold)
    (prefixed : DosPrefix win false front) (drive : startsWithDrive body = true) :
    mlPathRootLength win (front ++ body) = front.length + 3 := by
  have split := prefixed.body letters (show Qualified false body from drive)
  simp [mlPathRootLength, split, drive]

theorem mlPathRootLength_share {front body : WString} (letters : LettersOnly win.crtFold)
    (prefixed : DosPrefix win true front) (qualified : Qualified true body) :
    ∃ n, mlPathRootLength win (front ++ body) = front.length + n ∧ Qualified true (body.take n) := by
  have split := prefixed.body letters qualified
  obtain ⟨server, mark, rest, rfl, separator, whole, names⟩ := qualified
  have server_eq : (server ++ mark :: rest).takeWhile (fun c => !isSeparator c) = server := by
    rw [List.takeWhile_append_of_pos (by simpa using whole),
      List.takeWhile_cons_of_neg (by simp [separator]), List.append_nil]
  have rest_eq : (server ++ mark :: rest).dropWhile (fun c => !isSeparator c) = mark :: rest := by
    rw [List.dropWhile_append_of_pos (by simpa using whole),
      List.dropWhile_cons_of_neg (by simp [separator])]
  let share := rest.takeWhile fun c => !isSeparator c
  let last := if (rest.dropWhile fun c => !isSeparator c) ≠ [] then 1 else 0
  refine ⟨server.length + 1 + share.length + last, ?_, server, mark, rest.take (share.length + last),
    ?_, separator, whole, names⟩
  · have offset : (front ++ (server ++ mark :: rest)).length - (server ++ mark :: rest).length =
        front.length := by
      rw [List.length_append, Nat.add_sub_cancel]
    simp only [mlPathRootLength, split, server_eq, rest_eq, offset]
    show front.length + server.length + 1 + share.length + last = _
    omega
  · rw [Nat.add_assoc, Nat.add_assoc, List.take_length_add_append, Nat.add_comm 1, List.take_succ_cons]

theorem mlPathRemoveFilename_body {front body : WString} (letters : LettersOnly win.crtFold)
    (prefixed : DosPrefix win unc front) (qualified : Qualified unc body) :
    ∃ folder, mlPathRemoveFilename win (front ++ body) = front ++ folder ∧ Qualified unc folder := by
  have root : ∃ n, mlPathRootLength win (front ++ body) = front.length + n ∧
      Qualified unc (body.take n) := by
    cases unc with
    | false =>
        refine ⟨3, mlPathRootLength_drive letters prefixed qualified, ?_⟩
        have drive : startsWithDrive body = true := qualified
        match body, drive with
        | a :: colon :: mark :: rest, drive => exact drive
    | true =>
        exact mlPathRootLength_share letters prefixed qualified
  obtain ⟨n, length, kept⟩ := root
  refine ⟨body.take n ++ ((body.drop n).rdropWhile fun c => !isSeparator c).rdropWhile isSeparator,
    ?_, kept.append _⟩
  simp only [mlPathRemoveFilename]
  rw [length, List.take_length_add_append, List.drop_length_add_append, List.append_assoc]

/-! ## Other devices -/

/-- An extended or device prefix, with either separator. -/
inductive DevicePrefix : WString → Prop
  | mk {a b q c : WChar} (first : isSeparator a = true) (second : isSeparator b = true)
      (kind : q = WChar.question ∨ q = WChar.dot) (third : isSeparator c = true) : DevicePrefix [a, b, q, c]

def DeviceBody (win : Windows) (body : WString) : Prop :=
  ∃ device tail, body = device ++ tail ∧ tail.head?.all isSeparator = true ∧ device ≠ [] ∧
    (∀ c ∈ device, isSeparator c = false) ∧ (∀ a, device ≠ [a, WChar.colon]) ∧
    device.map win.crtFold ≠ (wide "UNC").map win.crtFold

theorem DeviceBody.not_drive {body : WString} (named : DeviceBody win body) : startsWithDrive body = false := by
  obtain ⟨device, tail, rfl, border, present, whole, drive, -⟩ := named
  match device, present with
  | [a], _ =>
      match tail with
      | [] | [_] => rfl
      | mark :: c :: rest =>
          have separator : isSeparator mark = true := by simpa using border
          have other : (mark == WChar.colon) = false := by
            rw [beq_eq_false_iff_ne]
            rintro rfl
            exact absurd separator (by decide)
          show (mark == WChar.colon && isSeparator c) = false
          rw [other, Bool.false_and]
  | [a, b], _ =>
      match tail with
      | [] => rfl
      | mark :: rest =>
          have other : (b == WChar.colon) = false := by
            rw [beq_eq_false_iff_ne]
            rintro rfl
            exact drive a rfl
          show (b == WChar.colon && isSeparator mark) = false
          rw [other, Bool.false_and]
  | a :: b :: c :: more, _ =>
      show (b == WChar.colon && isSeparator c) = false
      rw [whole c (by simp), Bool.and_false]

theorem DeviceBody.not_unc (letters : LettersOnly win.crtFold) {body : WString} (named : DeviceBody win body) :
    (win.wcsnicmpPrefix body (wide "UNC") && (body.drop 3).head?.any isSeparator) = false := by
  obtain ⟨device, tail, rfl, border, present, whole, -, unc⟩ := named
  have letter {mark : WChar} (separator : isSeparator mark = true) {c : WChar} (plain : isSeparator c = false) :
      win.crtFold mark ≠ win.crtFold c := by
    intro same
    simp only [isSeparator, Bool.or_eq_true, beq_iff_eq] at separator
    rcases separator with rfl | rfl
    · have := letters WChar.backslash (by decide) c same.symm
      rw [this] at plain
      cases plain
    · have := letters WChar.slash (by decide) c same.symm
      rw [this] at plain
      cases plain
  rw [Bool.and_eq_false_iff, Windows.wcsnicmpPrefix, show wide "UNC" = [85, 78, 67] from rfl, beq_eq_false_iff_ne]
  match device, present with
  | [a], _ =>
      refine .inl fun same => ?_
      cases tail with
      | nil => simp at same
      | cons mark rest =>
          simp only [List.singleton_append, List.map_cons, List.length_cons, List.length_nil,
            List.take_succ_cons, List.cons.injEq] at same
          exact letter (by simpa using border) (c := 78) rfl same.2.1
  | [a, b], _ =>
      refine .inl fun same => ?_
      cases tail with
      | nil => simp at same
      | cons mark rest =>
          simp only [List.cons_append, List.nil_append, List.map_cons, List.length_cons, List.length_nil,
            List.take_succ_cons, List.cons.injEq] at same
          exact letter (by simpa using border) (c := 67) rfl same.2.2.1
  | [a, b, c], _ =>
      refine .inl fun same => unc ?_
      simpa [show wide "UNC" = [85, 78, 67] from rfl] using same
  | a :: b :: c :: d :: more, _ =>
      refine .inr ?_
      simpa using whole d (by simp)

/-- Behind a device prefix only a drive and `UNC` have a body of their own. -/
theorem DevicePrefix.dosBody {front : WString} (prefixed : DevicePrefix front) (text : WString) :
    mlPathDosBody win (front ++ text) =
      if (win.wcsnicmpPrefix text (wide "UNC") && (text.drop 3).head?.any isSeparator) = true then
        (text.drop 4, true)
      else (if startsWithDrive text then text else front ++ text, false) := by
  obtain ⟨first, second, kind, third⟩ := prefixed
  simp [mlPathDosBody, first, second, third, kind_question_or_dot kind]

theorem DeviceBody.dosBody (letters : LettersOnly win.crtFold) {front body : WString}
    (prefixed : DevicePrefix front) (named : DeviceBody win body) :
    mlPathDosBody win (front ++ body) = (front ++ body, false) := by
  rw [prefixed.dosBody, named.not_unc letters, if_neg Bool.false_ne_true, named.not_drive, if_neg Bool.false_ne_true]

inductive Root
  | drive
  | share
  | device

namespace Root

/-- What may stand in front of the same path: other devices have no name without a prefix. -/
def Prefix (win : Windows) : Root → WString → Prop
  | drive => DosPrefix win false
  | share => DosPrefix win true
  | device => DevicePrefix

def Body (win : Windows) : Root → WString → Prop
  | drive => Qualified false
  | share => Qualified true
  | device => DeviceBody win

end Root

theorem rdropWhile_append_of_kept {p : WChar → Bool} {front : WString} (kept : ∀ c ∈ front.getLast?, p c = false)
    (back : WString) : (front ++ back).rdropWhile p = front ++ back.rdropWhile p := by
  induction back using List.reverseRecOn with
  | nil =>
      rw [List.append_nil, List.rdropWhile_nil, List.append_nil]
      rcases List.eq_nil_or_concat front with rfl | ⟨rest, c, rfl⟩
      · rfl
      · rw [List.concat_eq_append] at kept ⊢
        rw [List.rdropWhile_concat_neg _ _ _ (by simpa using kept c (by simp))]
  | append_singleton back c ih =>
      rw [← List.append_assoc]
      by_cases dropped : p c = true
      · rw [List.rdropWhile_concat_pos _ _ _ dropped, List.rdropWhile_concat_pos _ _ _ dropped, ih]
      · rw [List.rdropWhile_concat_neg _ _ _ dropped, List.rdropWhile_concat_neg _ _ _ dropped, List.append_assoc]

theorem mlPathRemoveFilename_device {front body : WString} (letters : LettersOnly win.crtFold)
    (prefixed : DevicePrefix front) (named : DeviceBody win body) (file : ∃ c ∈ body, isSeparator c = true) :
    ∃ folder, mlPathRemoveFilename win (front ++ body) = front ++ folder ∧ DeviceBody win folder := by
  have split := named.dosBody letters prefixed
  have unrooted : mlPathRootLength win (front ++ body) = 0 := by
    have drive : startsWithDrive (front ++ body) = false := by
      cases prefixed with
      | @mk a b q c _ second _ _ =>
          have other : (b == WChar.colon) = false := by
            rw [beq_eq_false_iff_ne]
            rintro rfl
            exact absurd second (by decide)
          show (b == WChar.colon && isSeparator q) = false
          rw [other, Bool.false_and]
    simp [mlPathRootLength, split, drive]
  obtain ⟨device, tail, rfl, border, present, whole, others⟩ := named
  obtain ⟨mark, rest, rfl⟩ : ∃ mark rest, tail = mark :: rest := by
    cases tail with
    | nil =>
        obtain ⟨c, member, separator⟩ := file
        rw [List.append_nil] at member
        rw [whole c member] at separator
        cases separator
    | cons mark rest => exact ⟨mark, rest, rfl⟩
  have separator : isSeparator mark = true := by simpa using border
  obtain ⟨start, last, same⟩ := (List.eq_nil_or_concat device).resolve_left present
  rw [List.concat_eq_append] at same
  have ends : ∀ c ∈ (front ++ device).getLast?, isSeparator c = false := by
    intro c member
    rw [same, ← List.append_assoc, List.getLast?_concat] at member
    obtain rfl := Option.some.inj member
    exact whole _ (by simp [same])
  have unnamed : (front ++ device ++ mark :: rest).rdropWhile (fun c => !isSeparator c) =
      front ++ device ++ mark :: rest.rdropWhile fun c => !isSeparator c := by
    rw [List.append_cons, rdropWhile_append_of_kept (by simp [separator]), ← List.append_cons]
  refine ⟨device ++ (mark :: rest.rdropWhile fun c => !isSeparator c).rdropWhile isSeparator, ?_,
    device, _, rfl, ?_, present, whole, others⟩
  · simp only [mlPathRemoveFilename, unrooted, List.take_zero, List.nil_append, List.drop_zero]
    rw [← List.append_assoc, unnamed, rdropWhile_append_of_kept ends, List.append_assoc]
  · have start := List.rdropWhile_prefix (p := isSeparator) (l := mark :: rest.rdropWhile fun c => !isSeparator c)
    cases dropped : (mark :: rest.rdropWhile fun c => !isSeparator c).rdropWhile isSeparator with
    | nil => rfl
    | cons c more =>
        rw [dropped, List.cons_prefix_cons] at start
        simpa [start.1] using separator

theorem mlPathRemoveFilename_folder {root : Root} {front body : WString} (letters : LettersOnly win.crtFold)
    (prefixed : root.Prefix win front) (named : root.Body win body) (file : ∃ c ∈ body, isSeparator c = true) :
    ∃ folder, mlPathRemoveFilename win (front ++ body) = front ++ folder ∧ root.Body win folder := by
  cases root with
  | drive => exact mlPathRemoveFilename_body letters prefixed named
  | share => exact mlPathRemoveFilename_body letters prefixed named
  | device => exact mlPathRemoveFilename_device letters prefixed named file

end Yafsml
