import Yafsml.Text.Folder
import Yafsml.Vfs.Lookup
import Yafsml.Vfs.NormalizeReference

/-!
# Lookups below the game folder

`vfs_lookup_prefixed_domain` finds the entry for a file of the game folder in the spellings of its
path, but for the files in the root of a drive or a share and for letters that `towlower` leaves apart.
-/

namespace Yafsml.Vfs

open Foundation

section Strip

variable (win : Windows)

def vfsCharEqualIgnoreCase (a b : WChar) : Bool :=
  if a = b then true
  else if a < 0x80 ∧ b < 0x80 then asciiLower a == asciiLower b
  else win.ordinalFold a == win.ordinalFold b

/-- The loop of `vfs_strip_path_prefix` and its test at the end. -/
def stripLoop : WString → WString → Option WString
  | path, [] => if path.head?.all isSeparator then some path else none
  | [], _ :: _ => none
  | c :: path, p :: folder =>
      if isSeparator c ≠ isSeparator p ∨
          (isSeparator c = false ∧ vfsCharEqualIgnoreCase win c p = false) then none
      else stripLoop path folder

def vfsStripPathPrefix (path folder : WString) : Option WString :=
  let (path, pathUnc) := mlPathDosBody win path
  let (folder, folderUnc) := mlPathDosBody win folder
  if pathUnc ≠ folderUnc then none else stripLoop win path folder

/-- `vfs_lookup_prefixed_domain`, with the buffers of `vfs_normalize_path` allocated and without the
caches of `vfs_lookup_domain`. -/
def vfsLookupPrefixedDomain (s : State) (path gameRoot : WString) : Option WString :=
  (vfsStripPathPrefix win path gameRoot).bind (vfsLookup win true s)

/-! ## What it is for -/

/-- The path begins with the folder, in some spelling, at a segment border; `rest` follows. -/
def BeginsWith (folder path rest : WString) : Prop :=
  ∃ (root : Root) (front body front' body' : WString), root.Prefix win front ∧ root.Body win body ∧
    folder = front ++ body ∧ root.Prefix win front' ∧ Spells win.ordinalFold body' body ∧
    path = front' ++ body' ++ rest ∧
    (rest.head?.all isSeparator = true ∨ endsWithSeparator folder = true)

/-- The path is a spelling of the file `rel` of the folder. -/
def SpellsFile (folder rel path : WString) : Prop :=
  ∃ joint rel', BeginsWith win folder path (joint ++ rel') ∧
    Spells win.ordinalFold joint (if endsWithSeparator folder then [] else [WChar.backslash]) ∧
    Spells win.ordinalFold rel' rel

/-- Lookups of a file of the folder find what the relative path finds, and lookups of others nothing. -/
structure PrefixedLookup (folder rel : WString) : Prop where
  spelled : ∀ s path, SpellsFile win folder rel path →
    vfsLookupPrefixedDomain win s path folder = vfsLookup win true s rel
  foreign : ∀ s path, (¬∃ rest, BeginsWith win folder path rest) →
    vfsLookupPrefixedDomain win s path folder = none
  climbing : ∀ s path rest, BeginsWith win folder path rest → normalizeReference win rest = none →
    vfsLookupPrefixedDomain win s path folder = none

end Strip

/-! ## When it is met -/

def plainMove (part : WString) : Foundation.Move WString :=
  if part = [] ∨ part = [WChar.dot] then .stay
  else if part = [WChar.dot, WChar.dot] then .up
  else .down part

/-- The segments of a path that its `..` leave; `none` when it climbs out of its root. -/
def keptNames (path : WString) : Option (List WString) :=
  Foundation.Move.resolve ((referenceParts path).map plainMove)

/-- The folder is on a drive or a share and does not end with a separator that the name needs, and the
letters that stay of the name have one lowercase form for each ordinal letter case. -/
structure Served (win : Windows) (root : Root) (folder rel : WString) : Prop where
  root : root ≠ .device
  border : endsWithSeparator folder = true → rel.head?.all isSeparator = true
  letters : ∀ names, keptNames rel = some names → ∀ name ∈ names, ∀ c ∈ name, ∀ d,
    win.ordinalFold d = win.ordinalFold c → win.towlower d = win.towlower c

variable {win : Windows}

/-! ## Stripping the folder -/

theorem vfsCharEqualIgnoreCase_iff (letters : win.FoldsLetters) (a b : WChar) :
    vfsCharEqualIgnoreCase win a b = true ↔ win.ordinalFold a = win.ordinalFold b := by
  unfold vfsCharEqualIgnoreCase
  split
  · rename_i same
    exact iff_of_true rfl (congrArg _ same)
  split
  · rename_i ascii
    rw [beq_iff_eq, letters.ascii a b ascii.1 ascii.2]
  · rw [beq_iff_eq]

theorem stripLoop_spells (letters : win.FoldsLetters) {body' body : WString}
    (spelled : Spells win.ordinalFold body' body) (rest : WString) :
    stripLoop win (body' ++ rest) body = if rest.head?.all isSeparator then some rest else none := by
  induction spelled with
  | nil => rw [List.nil_append, stripLoop]
  | @cons c p path folder same _ ih =>
      rw [List.cons_append, stripLoop, if_neg]
      · exact ih
      · rintro (different | ⟨letter, different⟩)
        · exact different same.1
        · rw [(vfsCharEqualIgnoreCase_iff letters c p).mpr (same.2 letter)] at different
          cases different

theorem stripLoop_some (letters : win.FoldsLetters) {path body rest : WString}
    (stripped : stripLoop win path body = some rest) :
    ∃ body', Spells win.ordinalFold body' body ∧ path = body' ++ rest ∧
      rest.head?.all isSeparator = true := by
  induction body generalizing path with
  | nil =>
      rw [stripLoop] at stripped
      split at stripped
      · rename_i border
        cases stripped
        exact ⟨[], .nil, rfl, border⟩
      · cases stripped
  | cons p folder ih =>
      cases path with
      | nil => cases stripped
      | cons c path =>
          rw [stripLoop] at stripped
          split at stripped
          · cases stripped
          · rename_i matched
            rw [not_or, not_not, not_and] at matched
            obtain ⟨body', spelled, rfl, border⟩ := ih stripped
            refine ⟨c :: body', .cons ⟨matched.1, fun letter => ?_⟩ spelled, rfl, border⟩
            apply (vfsCharEqualIgnoreCase_iff letters c p).mp
            simpa using matched.2 letter

theorem vfsStripPathPrefix_spells (letters : win.FoldsLetters) {unc : Bool}
    {front body front' body' : WString} (prefixed : DosPrefix win unc front)
    (qualified : Qualified unc body) (prefixed' : DosPrefix win unc front')
    (spelled : Spells win.ordinalFold body' body) (rest : WString) :
    vfsStripPathPrefix win (front' ++ body' ++ rest) (front ++ body) =
      if rest.head?.all isSeparator then some rest else none := by
  have qualified' := (qualified.spells letters.ordinal spelled).append rest
  rw [vfsStripPathPrefix, List.append_assoc, prefixed'.body letters.crt qualified',
    prefixed.body letters.crt qualified]
  simpa using stripLoop_spells letters spelled rest

theorem vfsStripPathPrefix_device (letters : win.FoldsLetters) {a b q c a' b' q' c' : WChar}
    {body body' : WString} (prefixed : DevicePrefix [a, b, q, c]) (named : DeviceBody win body)
    (prefixed' : DevicePrefix [a', b', q', c']) (spelled : Spells win.ordinalFold body' body) (rest : WString) :
    vfsStripPathPrefix win ([a', b', q', c'] ++ body' ++ rest) ([a, b, q, c] ++ body) = none ∨
      q' = q ∧ vfsStripPathPrefix win ([a', b', q', c'] ++ body' ++ rest) ([a, b, q, c] ++ body) =
        if rest.head?.all isSeparator then some rest else none := by
  have path : mlPathDosBody win ([a', b', q', c'] ++ (body' ++ rest)) = _ := prefixed'.dosBody _
  rw [vfsStripPathPrefix, named.dosBody letters.crt prefixed, List.append_assoc, path]
  cases prefixed with
  | mk first second kind third =>
  cases prefixed' with
  | mk first' second' kind' third' =>
  have same {x y : WChar} (left : isSeparator x = true) (right : isSeparator y = true) :
      SameChar win.ordinalFold x y :=
    ⟨left.trans right.symm, fun other => absurd (left.symm.trans other) Bool.noConfusion⟩
  by_cases unc : (win.wcsnicmpPrefix (body' ++ rest) (wide "UNC") &&
      ((body' ++ rest).drop 3).head?.any isSeparator) = true
  · rw [if_pos unc]
    exact .inl (if_pos Bool.noConfusion)
  rw [if_neg unc]
  simp only [ne_eq, not_true_eq_false, if_false]
  by_cases drive : startsWithDrive (body' ++ rest) = true
  · -- a drive is compared with a name that starts with separators
    rw [if_pos drive]
    left
    obtain ⟨device, tail, rfl, -, present, whole, -⟩ := named
    obtain ⟨d, more, rfl⟩ := List.exists_cons_of_ne_nil present
    cases spelled with
    | @cons x _ body'' _ here _ =>
        have letter : isSeparator x = false := here.1.trans (whole d List.mem_cons_self)
        change stripLoop win (x :: (body'' ++ rest)) (a :: b :: q :: _) = none
        rw [stripLoop, if_pos (.inl (by rw [letter, first]; exact Bool.false_ne_true))]
  rw [if_neg drive]
  by_cases kinds : q' = q
  · subst kinds
    exact .inr ⟨rfl, stripLoop_spells letters (.cons (same first' first) (.cons (same second' second)
      (.cons (.refl _) (.cons (same third' third) spelled)))) rest⟩
  · left
    have mark : q ∈ letterMarks := by
      rcases kind with rfl | rfl <;> decide
    have plain : isSeparator q' = false := by
      rcases kind' with rfl | rfl <;> rfl
    have apart : vfsCharEqualIgnoreCase win q' q = false := by
      rw [← Bool.not_eq_true, vfsCharEqualIgnoreCase_iff letters]
      exact fun folded => kinds (letters.ordinal q mark q' folded)
    have skip {x y : WChar} (left : isSeparator x = true) (right : isSeparator y = true) (path folder : WString) :
        stripLoop win (x :: path) (y :: folder) = stripLoop win path folder := by
      rw [stripLoop, if_neg]
      rintro (different | ⟨other, -⟩)
      · exact different (left.trans right.symm)
      · rw [left] at other
        cases other
    change stripLoop win (a' :: b' :: q' :: _) (a :: b :: q :: _) = none
    rw [skip first' first, skip second' second, stripLoop, if_pos (.inr ⟨plain, apart⟩)]

theorem vfsStripPathPrefix_some (letters : win.FoldsLetters) {root : Root} {front body path : WString}
    (prefixed : root.Prefix win front) (named : root.Body win body) {rest : WString}
    (stripped : vfsStripPathPrefix win path (front ++ body) = some rest) :
    BeginsWith win (front ++ body) path rest := by
  have found {unc : Bool} {folder : WString} (split : mlPathDosBody win (front ++ body) = (folder, unc)) :
      ∃ front' body', DosPrefix win unc front' ∧ mlPathDosBody win path = (body' ++ rest, unc) ∧
        Spells win.ordinalFold body' folder ∧ path = front' ++ body' ++ rest ∧
        rest.head?.all isSeparator = true := by
    rw [vfsStripPathPrefix, split] at stripped
    cases own : mlPathDosBody win path with
    | mk path' unc' =>
        rw [own] at stripped
        simp only at stripped
        split at stripped
        · cases stripped
        · rename_i same
          rw [not_not] at same
          subst same
          obtain ⟨front', prefixed', rfl⟩ := dosPrefix_of_body own
          obtain ⟨body', spelled, rfl, border⟩ := stripLoop_some letters stripped
          exact ⟨front', body', prefixed', rfl, spelled, by simp, border⟩
  cases root with
  | drive =>
      obtain ⟨front', body', prefixed', -, spelled, whole, border⟩ :=
        found (DosPrefix.body letters.crt prefixed named)
      exact ⟨.drive, front, body, front', body', prefixed, named, rfl, prefixed', spelled, whole, .inl border⟩
  | share =>
      obtain ⟨front', body', prefixed', -, spelled, whole, border⟩ :=
        found (DosPrefix.body letters.crt prefixed named)
      exact ⟨.share, front, body, front', body', prefixed, named, rfl, prefixed', spelled, whole, .inl border⟩
  | device =>
      obtain ⟨front', body', prefixed', own, spelled, whole, border⟩ :=
        found (DeviceBody.dosBody letters.crt prefixed named)
      have begins := prefixed
      cases prefixed with
      | @mk a b q c first second kind third =>
      match body', spelled with
      | a' :: b' :: q' :: c' :: body'', .cons one (.cons two (.cons three (.cons four more))) =>
          have mark : q ∈ letterMarks := by
            rcases kind with rfl | rfl <;> decide
          have plain : isSeparator q = false := by
            rcases kind with rfl | rfl <;> rfl
          obtain rfl := (SameChar.mark letters.ordinal mark plain).mp three
          -- a name that starts with separators has nothing in front of it
          have bare : front' = [] := by
            cases prefixed' with
            | drive => rfl
            | device first' second' kind' third' =>
                exfalso
                have unmatched : startsWithDrive (a' :: b' :: q' :: c' :: body'' ++ rest) = false := by
                  have other : (b' == WChar.colon) = false := by
                    rw [beq_eq_false_iff_ne]
                    rintro rfl
                    exact absurd (two.1.trans second) (by decide)
                  show (b' == WChar.colon && isSeparator q') = false
                  rw [other, Bool.false_and]
                rw [whole] at own
                simp [mlPathDosBody, first', second', third', kind_question_or_dot kind'] at own
                split at own
                · simp at own
                · rw [if_neg (by simpa using unmatched)] at own
                  have length := congrArg List.length (Prod.mk.inj own).1
                  simp only [List.length_cons, List.length_append] at length
                  omega
          subst bare
          exact ⟨.device, [a, b, q', c], body, [a', b', q', c'], body'', begins, named, rfl,
            .mk (one.1.trans first) (two.1.trans second) kind (four.1.trans third), more, whole, .inl border⟩

theorem BeginsWith.stripped (letters : win.FoldsLetters) {folder path rest : WString}
    (begins : BeginsWith win folder path rest) :
    vfsStripPathPrefix win path folder = none ∨ vfsStripPathPrefix win path folder = some rest := by
  obtain ⟨root, front, body, front', body', prefixed, named, rfl, prefixed', spelled, rfl, -⟩ := begins
  have settle {stripped : Option WString} (same : stripped = if rest.head?.all isSeparator then some rest else none) :
      stripped = none ∨ stripped = some rest := by
    rw [same]
    split
    · exact .inr rfl
    · exact .inl rfl
  cases root with
  | drive => exact settle (vfsStripPathPrefix_spells letters prefixed named prefixed' spelled rest)
  | share => exact settle (vfsStripPathPrefix_spells letters prefixed named prefixed' spelled rest)
  | device =>
      have here := prefixed
      have there := prefixed'
      cases prefixed
      cases prefixed'
      rcases vfsStripPathPrefix_device letters here named there spelled rest with none | ⟨-, same⟩
      · exact .inl none
      · exact settle same

theorem BeginsWith.stripped_dos (letters : win.FoldsLetters) {root : Root} {front body path rest : WString}
    (prefixed : root.Prefix win front) (named : root.Body win body) (dos : root ≠ .device)
    (begins : BeginsWith win (front ++ body) path rest) :
    vfsStripPathPrefix win path (front ++ body) = if rest.head?.all isSeparator then some rest else none := by
  obtain ⟨root', front₁, body₁, front', body', prefixed₁, named₁, same, prefixed', spelled, rfl, -⟩ := begins
  rw [same]
  cases root' with
  | drive => exact vfsStripPathPrefix_spells letters prefixed₁ named₁ prefixed' spelled rest
  | share => exact vfsStripPathPrefix_spells letters prefixed₁ named₁ prefixed' spelled rest
  | device =>
      exfalso
      have other := DeviceBody.dosBody letters.crt prefixed₁ named₁
      rw [← same] at other
      cases root with
      | drive =>
          rw [DosPrefix.body letters.crt prefixed named, Prod.mk.injEq] at other
          have drive : startsWithDrive body = true := named
          rw [other.1, same] at drive
          cases prefixed₁ with
          | mk _ second _ _ =>
              have colon := (Bool.and_eq_true _ _ ▸ drive).1
              rw [beq_iff_eq] at colon
              subst colon
              exact absurd second (by decide)
      | share =>
          rw [DosPrefix.body letters.crt prefixed named, Prod.mk.injEq] at other
          cases other.2
      | device => exact dos rfl

/-! ## The relative path -/

theorem Spells.not_mem {fold : WChar → WChar} (letters : LettersOnly fold) {mark : WChar}
    (member : mark ∈ letterMarks) (other : isSeparator mark = false) {text' text : WString}
    (spelled : Spells fold text' text) (absent : mark ∉ text) : mark ∉ text' := by
  induction spelled with
  | nil => exact List.not_mem_nil
  | cons same _ ih =>
      rw [List.mem_cons, not_or] at absent ⊢
      refine ⟨?_, ih absent.2⟩
      rintro rfl
      exact absent.1 ((SameChar.mark_left letters member other).mp same).symm

theorem spells_dropSeparators {fold : WChar → WChar} {text' text : WString}
    (spelled : Spells fold text' text) : Spells fold (dropSeparators text') (dropSeparators text) := by
  induction spelled with
  | nil => exact .nil
  | @cons c d rest' rest same more ih =>
      unfold dropSeparators at ih ⊢
      rw [List.dropWhile_cons, List.dropWhile_cons, same.1]
      split
      · exact ih
      · exact .cons same more

theorem spells_splitOnP {fold : WChar → WChar} {text' text : WString}
    (spelled : Spells fold text' text) :
    List.Forall₂ (Spells fold) (text'.splitOnP isSeparator) (text.splitOnP isSeparator) := by
  induction spelled with
  | nil => exact .cons .nil .nil
  | @cons c d rest' rest same more ih =>
      rw [List.splitOnP_cons_eq_if_modifyHead, List.splitOnP_cons_eq_if_modifyHead, same.1]
      split
      · exact .cons .nil ih
      · generalize rest'.splitOnP isSeparator = parts' at ih
        generalize rest.splitOnP isSeparator = parts at ih
        cases ih with
        | nil => exact .nil
        | cons first others => exact .cons (.cons same first) others

theorem spells_special {fold : WChar → WChar} (letters : LettersOnly fold) {text' text : WString}
    (spelled : Spells fold text' text) :
    (text' = [] ↔ text = []) ∧ (text' = [WChar.dot] ↔ text = [WChar.dot]) ∧
      (text' = [WChar.dot, WChar.dot] ↔ text = [WChar.dot, WChar.dot]) := by
  have dot {c d : WChar} (same : SameChar fold c d) : c = WChar.dot ↔ d = WChar.dot := by
    constructor
    · rintro rfl
      exact (SameChar.mark_left letters (by decide) (by decide)).mp same
    · rintro rfl
      exact (SameChar.mark letters (by decide) (by decide)).mp same
  match spelled with
  | .nil => simp
  | .cons first .nil => simp [dot first]
  | .cons first (.cons second .nil) => simp [dot first, dot second]
  | .cons first (.cons second (.cons third rest)) => simp

theorem segmentMove_eq (win : Windows) (part : WString) :
    segmentMove win part = (plainMove part).map (List.map win.towlower) := by
  unfold segmentMove plainMove
  split
  · rfl
  split
  · rfl
  · rfl

theorem vfsNormalizePath_keptNames (win : Windows) (path : WString) :
    vfsNormalizePath win path = (keptNames path).map fun names => joined (names.map (List.map win.towlower)) := by
  have moves : (referenceParts path).map (segmentMove win) =
      ((referenceParts path).map plainMove).map (Foundation.Move.map (List.map win.towlower)) := by
    rw [List.map_map]
    exact List.map_congr_left fun part _ => segmentMove_eq win part
  rw [vfsNormalizePath_eq, normalizeReference, resolvedNames, moves, Foundation.Move.resolve_map,
    Option.map_map, keptNames]
  rfl

theorem referenceParts_of_no_colon {path : WString} (plain : WChar.colon ∉ path) :
    referenceParts path = (dropSeparators path).splitOnP isSeparator := by
  rw [← pathParts_of_no_colon plain, pathParts, dropPrefix_eq, referenceParts]

theorem plainMove_spells {fold : WChar → WChar} (letters : LettersOnly fold) {part' part : WString}
    (spelled : Spells fold part' part) (whole : ∀ c ∈ part, isSeparator c = false) :
    (plainMove part').map (List.map fold) = (plainMove part).map (List.map fold) := by
  obtain ⟨empty, dot, dots⟩ := spells_special letters spelled
  have folded : part'.map fold = part.map fold := by
    clear empty dot dots
    induction spelled with
    | nil => rfl
    | @cons c d rest' rest same _ ih =>
        have letter : isSeparator c = false := same.1.trans (whole d List.mem_cons_self)
        rw [List.map_cons, List.map_cons, same.2 letter,
          ih fun c member => whole c (List.mem_cons_of_mem _ member)]
  unfold plainMove
  rw [if_congr (or_congr empty dot) rfl rfl, if_congr dots rfl rfl]
  split
  · rfl
  split
  · rfl
  · rw [Foundation.Move.map, Foundation.Move.map, folded]

theorem keptNames_spells {fold : WChar → WChar} (letters : LettersOnly fold) {rel' rel : WString}
    (plain : WChar.colon ∉ rel) (spelled : Spells fold rel' rel) :
    (keptNames rel').map (List.map (List.map fold)) = (keptNames rel).map (List.map (List.map fold)) := by
  have plain' := Spells.not_mem letters (by decide) (by decide) spelled plain
  have parts := spells_splitOnP (spells_dropSeparators spelled)
  rw [keptNames, keptNames, referenceParts_of_no_colon plain, referenceParts_of_no_colon plain',
    ← Foundation.Move.resolve_map, ← Foundation.Move.resolve_map, List.map_map, List.map_map]
  congr 1
  have whole : ∀ part ∈ (dropSeparators rel).splitOnP isSeparator, ∀ c ∈ part, isSeparator c = false :=
    fun part member c inside => (mem_splitOnP member c inside).1
  generalize (dropSeparators rel').splitOnP isSeparator = parts' at parts
  generalize (dropSeparators rel).splitOnP isSeparator = parts₀ at parts whole
  induction parts with
  | nil => rfl
  | cons same _ ih =>
      rw [List.map_cons, List.map_cons, ih fun part member => whole part (List.mem_cons_of_mem _ member)]
      exact congrArg (· :: _) (plainMove_spells letters same (whole _ List.mem_cons_self))

/-- Lists that one map does not tell apart, another one does not either where it tells no more apart. -/
theorem map_eq_map_of {α β γ : Type*} {f : α → β} {g : α → γ} {xs ys : List α} (same : xs.map f = ys.map f)
    (coarser : ∀ y ∈ ys, ∀ x, f x = f y → g x = g y) : xs.map g = ys.map g := by
  induction ys generalizing xs with
  | nil => rw [List.map_nil, List.map_eq_nil_iff] at same; rw [same]
  | cons y ys ih =>
      obtain ⟨x, xs, rfl, here, rest⟩ := List.map_eq_cons_iff.mp same
      rw [List.map_cons, List.map_cons, coarser y List.mem_cons_self x here,
        ih rest fun y member => coarser y (List.mem_cons_of_mem _ member)]

theorem joined_map_inj {f g : WChar → WChar} {names : List WString}
    (same : joined (names.map (List.map f)) = joined (names.map (List.map g))) :
    ∀ name ∈ names, ∀ c ∈ name, f c = g c := by
  induction names with
  | nil => nofun
  | cons name rest ih =>
      have length : (name.map f).length = (name.map g).length := by rw [List.length_map, List.length_map]
      have apart : name.map f = name.map g ∧
          joined (rest.map (List.map f)) = joined (rest.map (List.map g)) := by
        cases rest with
        | nil =>
            rw [List.map_singleton, List.map_singleton, joined_singleton, joined_singleton] at same
            exact ⟨same, rfl⟩
        | cons second more =>
            rw [List.map_cons, List.map_cons (f := List.map g), joined_cons (by simp), joined_cons (by simp)] at same
            obtain ⟨first, others⟩ := List.append_inj same length
            exact ⟨first, (List.cons.inj others).2⟩
      intro other member c inside
      rcases List.mem_cons.mp member with rfl | later
      · exact List.map_inj_left.mp apart.1 c inside
      · exact ih apart.2 other later c inside

theorem vfsNormalizePath_cons {c : WChar} (separator : isSeparator c = true) (rel : WString) :
    vfsNormalizePath win (c :: rel) = vfsNormalizePath win rel := by
  have same : dropSeparators (c :: rel) = dropSeparators rel :=
    List.dropWhile_cons_of_pos separator
  rw [vfsNormalizePath, vfsNormalizePath, pathParts, pathParts, same]

theorem vfsUidToPath_none (s : State) {path : WString} (plain : WChar.question ∉ path) :
    vfsUidToPath s path = none := by
  have other : ¬uidPrefix <+: path := fun start => plain (start.subset (by decide))
  simp [vfsUidToPath, vfsUidEntry, other]

theorem vfsLookup_congr (s : State) {path path' : WString} (plain : WChar.question ∉ path)
    (plain' : WChar.question ∉ path') (same : vfsNormalizePath win path = vfsNormalizePath win path') :
    vfsLookup win true s path = vfsLookup win true s path' := by
  rw [vfsLookup, vfsLookup, vfsUidToPath_none s plain, vfsUidToPath_none s plain', indexedEntry, indexedEntry,
    if_pos rfl, if_pos rfl, same]

/-! ## Paths that leave the folder -/

theorem not_dot_of_hexadecimal {text : WString} (digits : ∀ c ∈ text, iswxdigit c = true) :
    WChar.dot ∉ text := by
  intro member
  exact absurd (digits _ member) (by decide)

theorem not_dot_of_number {number : WString} (whole : (wcstoull16 number).2 = []) :
    WChar.dot ∉ number := by
  unfold wcstoull16 at whole
  dsimp only at whole
  rw [List.dropWhile_eq_nil_iff] at whole
  split at whole
  · split at whole
    · rename_i zero x d rest prefixed
      simp only [Bool.and_eq_true, Bool.or_eq_true, beq_iff_eq] at prefixed
      have digits := not_dot_of_hexadecimal whole
      obtain ⟨⟨rfl, x_eq⟩, -⟩ := prefixed
      have x_not : WChar.dot ≠ x := by
        rcases x_eq with rfl | rfl
        · decide
        · decide
      rw [List.mem_cons, List.mem_cons, not_or, not_or]
      exact ⟨by decide, x_not, digits⟩
    · exact not_dot_of_hexadecimal whole
  · exact not_dot_of_hexadecimal whole

theorem not_dot_of_uid {s : State} {uid : WString} (found : (vfsUidEntry s uid).isSome = true) :
    WChar.dot ∉ uid := by
  unfold vfsUidEntry at found
  split at found
  · rename_i start
    obtain ⟨tail, rfl⟩ := start
    dsimp only at found
    rw [List.drop_left] at found
    rw [List.mem_append, not_or]
    refine ⟨by decide, ?_⟩
    have number {number : WString} {streaming : Bool}
        (found : (if number.head?.any iswxdigit = true then
          if (wcstoull16 number).2 = [] ∧ (wcstoull16 number).1 < s.entries.length then
            some ((wcstoull16 number).1, streaming) else none
          else none).isSome = true) : WChar.dot ∉ number := by
      split at found
      · split at found
        · rename_i whole
          exact not_dot_of_number whole.1
        · cases found
      · cases found
    cases streaming : tail.head? == some 115 with
    | false =>
        rw [streaming] at found
        exact number found
    | true =>
        rw [streaming] at found
        have digits := number found
        cases tail with
        | nil => exact List.not_mem_nil
        | cons c rest =>
            have c_eq : c = 115 := by simpa using streaming
            rw [List.mem_cons, not_or]
            exact ⟨by rw [c_eq]; decide, digits⟩
  · cases found

theorem vfsLookup_climbing (s : State) {rest : WString} (climbs : vfsNormalizePath win rest = none) :
    vfsLookup win true s rest = none := by
  have direct : vfsUidToPath s rest = none := by
    unfold vfsUidToPath
    cases found : vfsUidEntry s rest with
    | none => rfl
    | some entry =>
        have dotless : WChar.dot ∉ rest := not_dot_of_uid (by rw [found]; rfl)
        have upward : [WChar.dot, WChar.dot] ∉ pathParts rest := by
          intro member
          have inside := (mem_splitOnP member WChar.dot (by simp)).2
          exact dotless ((((List.dropWhile_suffix _).trans (dropPrefix_suffix _)).trans
            (List.dropWhile_suffix _)).subset inside)
        obtain ⟨state, run⟩ := pushSegments_some win upward ⟨[], []⟩
        rw [vfsNormalizePath, run] at climbs
        cases climbs
  rw [vfsLookup, direct, indexedEntry]
  simp [climbs]

/-! ## Files of the folder -/

theorem joint_spec (letters : win.FoldsLetters) {folder rel joint rel' : WString}
    (joins : Spells win.ordinalFold joint (if endsWithSeparator folder then [] else [WChar.backslash]))
    (spelled : Spells win.ordinalFold rel' rel) (question : WChar.question ∉ rel) :
    WChar.question ∉ joint ++ rel' ∧ vfsNormalizePath win (joint ++ rel') = vfsNormalizePath win rel' ∧
      ((joint ++ rel').head?.all isSeparator = true ↔
        (endsWithSeparator folder = true → rel.head?.all isSeparator = true)) := by
  have heads : rel'.head?.all isSeparator = rel.head?.all isSeparator := by
    cases spelled with
    | nil => rfl
    | cons same _ => exact same.1
  have plain := Spells.not_mem letters.ordinal (by decide) (by decide) spelled question
  cases ends : endsWithSeparator folder with
  | true =>
      rw [ends, if_pos rfl] at joins
      cases joins
      exact ⟨plain, rfl, by simp [heads]⟩
  | false =>
      rw [ends, if_neg Bool.false_ne_true] at joins
      cases joins with
      | @cons mark _ _ _ same more =>
          cases more
          have separator : isSeparator mark = true := same.1
          have other : WChar.question ≠ mark := by
            rintro rfl
            exact absurd separator (by decide)
          refine ⟨?_, vfsNormalizePath_cons separator rel', by simp [separator]⟩
          rw [List.singleton_append, List.mem_cons, not_or]
          exact ⟨other, plain⟩

theorem spelled_of_served (letters : win.FoldsLetters) {root : Root} {front body rel : WString}
    (prefixed : root.Prefix win front) (named : root.Body win body) (colon : WChar.colon ∉ rel)
    (question : WChar.question ∉ rel) (served : keptNames rel = none ∨ Served win root (front ++ body) rel)
    (s : State) {path : WString} (spelling : SpellsFile win (front ++ body) rel path) :
    vfsLookupPrefixedDomain win s path (front ++ body) = vfsLookup win true s rel := by
  obtain ⟨joint, rel', begins, joins, spelled⟩ := spelling
  obtain ⟨plain, bare, border⟩ := joint_spec letters joins spelled question
  have kept := keptNames_spells letters.ordinal colon spelled
  rcases served with climbs | served
  · have climbs' : keptNames rel' = none := by
      rw [climbs, Option.map_none, Option.map_eq_none_iff] at kept
      exact kept
    rw [vfsLookup_climbing s (by rw [vfsNormalizePath_keptNames, climbs, Option.map_none]), vfsLookupPrefixedDomain]
    rcases begins.stripped letters with none | rest
    · rw [none, Option.bind_none]
    · rw [rest, Option.bind_some]
      apply vfsLookup_climbing
      rw [bare, vfsNormalizePath_keptNames, climbs', Option.map_none]
  · have stripped := begins.stripped_dos letters prefixed named served.root
    rw [if_pos (border.mpr served.border)] at stripped
    rw [vfsLookupPrefixedDomain, stripped, Option.bind_some]
    apply vfsLookup_congr s plain question
    rw [bare, vfsNormalizePath_keptNames, vfsNormalizePath_keptNames]
    cases names : keptNames rel with
    | none =>
        rw [names, Option.map_none, Option.map_eq_none_iff] at kept
        rw [kept, Option.map_none]
    | some names' =>
        rw [names, Option.map_some] at kept
        obtain ⟨others, found, same⟩ := Option.map_eq_some_iff.mp kept
        have lower : others.map (List.map win.towlower) = names'.map (List.map win.towlower) :=
          map_eq_map_of same fun name member name' folded =>
            map_eq_map_of folded (served.letters names' names name member)
        rw [found, Option.map_some, Option.map_some, lower]

/-! ## Files that are missed -/

def loneEntry (key : WString) : State :=
  { vfsInit with
    index := AList.singleton key 0
    entries := [⟨key, some (wide "C:\\mod\\a"), uidOf 0, streamingUidOf 0, none, 0⟩] }

theorem vfsLookup_loneEntry {key path : WString} (plain : WChar.question ∉ path) :
    vfsLookup win true (loneEntry key) path ≠ none ↔ vfsNormalizePath win path = some key := by
  rw [vfsLookup, vfsUidToPath_none _ plain, indexedEntry, if_pos rfl]
  cases normal : vfsNormalizePath win path with
  | none => simp
  | some key' =>
      by_cases same : key' = key
      · subst same
        have index : (loneEntry key').index.lookup key' = some 0 := List.dlookup_cons_eq [] _ _
        rw [Option.bind_some, index]
        exact iff_of_true (Option.some_ne_none _) rfl
      · have index : (loneEntry key).index.lookup key' = none :=
          List.dlookup_cons_ne [] ⟨key, 0⟩ same
        rw [Option.bind_some, index]
        simpa using same

/-- The name with another character for each `c`. -/
def respell (c d x : WChar) : WChar := if x = c then d else x

section Letters

variable {c d : WChar}

theorem ne_mark_of_folded {fold : WChar → WChar} (letters : LettersOnly fold) {mark : WChar}
    (member : mark ∈ letterMarks) (folded : fold d = fold c) (apart : d ≠ c) : d ≠ mark ∧ c ≠ mark := by
  constructor
  · rintro rfl
    exact apart (letters d member c folded.symm).symm
  · rintro rfl
    exact apart (letters c member d folded)

theorem respell_eq_iff {mark : WChar} (other : d ≠ mark) (other' : c ≠ mark) (x : WChar) :
    respell c d x = mark ↔ x = mark := by
  unfold respell
  split
  · rename_i here
    rw [here]
    exact iff_of_false other other'
  · rfl

variable (plain : isSeparator c = false) (plain' : isSeparator d = false)

include plain plain'

theorem isSeparator_respell (x : WChar) : isSeparator (respell c d x) = isSeparator x := by
  unfold respell
  split
  · rename_i here
    rw [here, plain, plain']
  · rfl

theorem spells_respell {fold : WChar → WChar} (folded : fold d = fold c) (text : WString) :
    Spells fold (text.map (respell c d)) text := by
  refine List.forall₂_map_left_iff.mpr (List.forall₂_same.mpr fun x _ =>
    ⟨isSeparator_respell plain plain' x, fun _ => ?_⟩)
  unfold respell
  split
  · rename_i here
    rw [here, folded]
  · rfl

end Letters

section Respell

variable {h : WChar → WChar} (separators : ∀ x, isSeparator (h x) = isSeparator x)

include separators

theorem dropSeparators_map (path : WString) : dropSeparators (path.map h) = (dropSeparators path).map h := by
  unfold dropSeparators
  rw [List.dropWhile_map]
  exact congrArg _ (congrArg (List.dropWhile · path) (funext separators))

theorem splitOnP_map (path : WString) :
    (path.map h).splitOnP isSeparator = (path.splitOnP isSeparator).map (List.map h) := by
  induction path with
  | nil => rfl
  | cons c rest ih =>
      rw [List.map_cons, List.splitOnP_cons_eq_if_modifyHead, List.splitOnP_cons_eq_if_modifyHead, separators, ih]
      split
      · rfl
      · cases rest.splitOnP isSeparator <;> rfl

theorem keptNames_map (dots : ∀ x, h x = WChar.dot ↔ x = WChar.dot) {path : WString}
    (plain : WChar.colon ∉ path) (plain' : WChar.colon ∉ path.map h) :
    keptNames (path.map h) = (keptNames path).map (List.map (List.map h)) := by
  have move (part : WString) : plainMove (part.map h) = (plainMove part).map (List.map h) := by
    have special : (part.map h = [] ↔ part = []) ∧ (part.map h = [WChar.dot] ↔ part = [WChar.dot]) ∧
        (part.map h = [WChar.dot, WChar.dot] ↔ part = [WChar.dot, WChar.dot]) := by
      match part with
      | [] | [_] | [_, _] | _ :: _ :: _ :: _ => simp [dots]
    unfold plainMove
    rw [if_congr (or_congr special.1 special.2.1) rfl rfl, if_congr special.2.2 rfl rfl]
    split
    · rfl
    split
    · rfl
    · rfl
  rw [keptNames, keptNames, referenceParts_of_no_colon plain, referenceParts_of_no_colon plain',
    dropSeparators_map separators, splitOnP_map separators, ← Foundation.Move.resolve_map, List.map_map, List.map_map]
  exact congrArg Foundation.Move.resolve (List.map_congr_left fun part _ => move part)

end Respell

theorem mem_of_keptNames {path : WString} {names : List WString} (kept : keptNames path = some names) :
    ∀ name ∈ names, ∀ c ∈ name, isSeparator c = false := by
  intro name member c inside
  obtain ⟨part, among, moved⟩ := List.mem_map.mp (Foundation.Move.mem_of_resolve kept member)
  unfold plainMove at moved
  split at moved
  · cases moved
  split at moved
  · cases moved
  · cases moved
    exact (mem_splitOnP among c inside).1

def jointOf (folder : WString) : WString := if endsWithSeparator folder then [] else [WChar.backslash]

theorem beginsWith_self {root : Root} {front front' body rel : WString} (prefixed : root.Prefix win front)
    (prefixed' : root.Prefix win front') (named : root.Body win body) :
    BeginsWith win (front ++ body) (front' ++ body ++ (jointOf (front ++ body) ++ rel))
      (jointOf (front ++ body) ++ rel) := by
  refine ⟨root, front, body, front', body, prefixed, named, rfl, prefixed', Spells.refl body, rfl, ?_⟩
  unfold jointOf
  cases ends : endsWithSeparator (front ++ body) with
  | true => exact .inr rfl
  | false => exact .inl rfl

theorem spellsFile_own {root : Root} {front front' body rel' rel : WString} (prefixed : root.Prefix win front)
    (prefixed' : root.Prefix win front') (named : root.Body win body) (spelled : Spells win.ordinalFold rel' rel) :
    SpellsFile win (front ++ body) rel (front' ++ body ++ (jointOf (front ++ body) ++ rel')) :=
  ⟨_, rel', beginsWith_self prefixed prefixed' named, Spells.refl _, spelled⟩

/-- Every spelling of the file begins with the folder, if that is recognised. -/
def Recognised (win : Windows) (folder rel : WString) : Prop :=
  ∀ path, SpellsFile win folder rel path → vfsStripPathPrefix win path folder ≠ none

theorem recognised_of_found {folder rel : WString} {names : List WString} (question : WChar.question ∉ rel)
    (found : ∀ s path, SpellsFile win folder rel path →
      vfsLookupPrefixedDomain win s path folder = vfsLookup win true s rel)
    (kept : keptNames rel = some names) : Recognised win folder rel := by
  intro path spelling none
  have present : vfsLookup win true (loneEntry (joined (names.map (List.map win.towlower)))) rel ≠ Option.none :=
    (vfsLookup_loneEntry question).mpr (by rw [vfsNormalizePath_keptNames, kept, Option.map_some])
  rw [← found _ path spelling, vfsLookupPrefixedDomain, none, Option.bind_none] at present
  exact present rfl

section Recognised

variable {root : Root} {front body rel : WString} (letters : win.FoldsLetters) (prefixed : root.Prefix win front)
  (named : root.Body win body) (recognised : Recognised win (front ++ body) rel)

include letters prefixed named recognised

/-- The folder of another device has a spelling that is not recognised, with the other kind of prefix. -/
theorem Recognised.dos : root ≠ .device := by
  rintro rfl
  have here := prefixed
  cases prefixed with
  | @mk a b q c first second kind third =>
      obtain ⟨q', kind', other⟩ : ∃ q', (q' = WChar.question ∨ q' = WChar.dot) ∧ q' ≠ q := by
        rcases kind with rfl | rfl
        · exact ⟨WChar.dot, .inr rfl, by decide⟩
        · exact ⟨WChar.question, .inl rfl, by decide⟩
      have there : DevicePrefix [a, b, q', c] := .mk first second kind' third
      rcases vfsStripPathPrefix_device letters here named there (Spells.refl body) _ with none | ⟨same, -⟩
      · exact recognised _ (spellsFile_own here there named (Spells.refl rel)) none
      · exact other same

theorem Recognised.stripped (rel' : WString) :
    vfsStripPathPrefix win (front ++ body ++ (jointOf (front ++ body) ++ rel')) (front ++ body) =
      if (jointOf (front ++ body) ++ rel').head?.all isSeparator then some (jointOf (front ++ body) ++ rel')
      else none :=
  (beginsWith_self prefixed prefixed named).stripped_dos letters prefixed named
    (recognised.dos letters prefixed named)

theorem Recognised.border (question : WChar.question ∉ rel) :
    endsWithSeparator (front ++ body) = true → rel.head?.all isSeparator = true := by
  apply (joint_spec letters (Spells.refl _) (Spells.refl rel) question).2.2.mp
  by_contra inner
  apply recognised _ (spellsFile_own prefixed prefixed named (Spells.refl rel))
  rw [recognised.stripped letters prefixed named]
  exact if_neg inner

end Recognised

theorem served_of_spelled (letters : win.FoldsLetters) {root : Root} {front body rel : WString}
    (prefixed : root.Prefix win front) (named : root.Body win body) (colon : WChar.colon ∉ rel)
    (question : WChar.question ∉ rel)
    (found : ∀ s path, SpellsFile win (front ++ body) rel path →
      vfsLookupPrefixedDomain win s path (front ++ body) = vfsLookup win true s rel)
    {names : List WString} (kept : keptNames rel = some names) : Served win root (front ++ body) rel := by
  have recognised := recognised_of_found question found kept
  have border := recognised.border letters prefixed named question
  refine ⟨recognised.dos letters prefixed named, border, ?_⟩
  intro names' kept' name member c inside d folded
  obtain rfl := Option.some.inj (kept.symm.trans kept')
  by_contra apart
  have differ : d ≠ c := fun same => apart (congrArg _ same)
  have unmarked {mark : WChar} (among : mark ∈ letterMarks) : d ≠ mark ∧ c ≠ mark :=
    ne_mark_of_folded letters.ordinal among folded differ
  have plain : isSeparator c = false := mem_of_keptNames kept name member c inside
  have plain' : isSeparator d = false := by
    simp only [isSeparator, Bool.or_eq_false_iff, beq_eq_false_iff_ne]
    exact ⟨(unmarked (by decide)).1, (unmarked (by decide)).1⟩
  have marks {mark : WChar} (among : mark ∈ letterMarks) := respell_eq_iff (unmarked among).1 (unmarked among).2
  -- the same path with `d` for `c` is a spelling of it
  have spelled := spells_respell plain plain' folded rel
  have colon' : WChar.colon ∉ rel.map (respell c d) := by
    intro among
    obtain ⟨x, listed, same⟩ := List.mem_map.mp among
    exact colon ((marks (by decide) x).mp same ▸ listed)
  obtain ⟨unasked, bare, border'⟩ := joint_spec letters (Spells.refl _) spelled question
  have normal : vfsNormalizePath win rel = some (joined (names.map (List.map win.towlower))) := by
    rw [vfsNormalizePath_keptNames, kept, Option.map_some]
  have present := (vfsLookup_loneEntry question).mpr normal
  have missed := found (loneEntry (joined (names.map (List.map win.towlower)))) _
    (spellsFile_own prefixed prefixed named spelled)
  rw [vfsLookupPrefixedDomain, recognised.stripped letters prefixed named, jointOf, if_pos (border'.mpr border),
    Option.bind_some] at missed
  rw [← missed, vfsLookup_loneEntry unasked, bare, vfsNormalizePath_keptNames,
    keptNames_map (isSeparator_respell plain plain') (marks (by decide)) colon colon', kept] at present
  simp only [Option.map_some, Option.some.injEq, List.map_map] at present
  have same := joined_map_inj (f := win.towlower ∘ respell c d) (g := win.towlower)
    (by rw [← present]; congr 1; exact List.map_congr_left fun name _ => (List.map_map ..).symm) name member c inside
  exact apart (by simpa [respell] using same)

/-! ## The lookups of a file -/

/-- For the folder of a module and a relative path: the file is found in every spelling exactly when the path
climbs out of the folder, or the folder and the letters of the path are such that it is served. -/
theorem prefixedLookup_iff (letters : win.FoldsLetters) {root : Root} {front body rel : WString}
    (prefixed : root.Prefix win front) (named : root.Body win body) (file : ∃ c ∈ body, isSeparator c = true)
    (colon : WChar.colon ∉ rel) (question : WChar.question ∉ rel) :
    PrefixedLookup win (mlPathRemoveFilename win (front ++ body)) rel ↔
      keptNames rel = none ∨ Served win root (mlPathRemoveFilename win (front ++ body)) rel := by
  obtain ⟨folder, removed, named'⟩ := mlPathRemoveFilename_folder letters.crt prefixed named file
  rw [removed]
  constructor
  · intro lookup
    cases kept : keptNames rel with
    | none => exact .inl rfl
    | some names => exact .inr (served_of_spelled letters prefixed named' colon question lookup.spelled kept)
  · intro served
    constructor
    · exact fun s path spelling => spelled_of_served letters prefixed named' colon question served s spelling
    · intro s path foreign
      cases stripped : vfsStripPathPrefix win path (front ++ folder) with
      | none => rw [vfsLookupPrefixedDomain, stripped, Option.bind_none]
      | some rest => exact absurd ⟨rest, vfsStripPathPrefix_some letters prefixed named' stripped⟩ foreign
    · intro s path rest begins climbs
      rw [vfsLookupPrefixedDomain]
      rcases begins.stripped letters with none | stripped
      · rw [none, Option.bind_none]
      · rw [stripped, Option.bind_some]
        rw [← vfsNormalizePath_eq] at climbs
        exact vfsLookup_climbing s climbs

/-- An extended name outside of a root. -/
theorem prefixedLookup_iff_extended :
    PrefixedLookup asciiWindows
      (mlPathRemoveFilename asciiWindows (wide "\\\\?\\" ++ wide "D:\\Game\\game.exe")) (wide "menu\\..\\A.bin") := by
  have own : ∀ c d : WChar, asciiWindows.ordinalFold d = asciiWindows.ordinalFold c →
      asciiWindows.towlower d = asciiWindows.towlower c := fun _ _ => id
  refine (@prefixedLookup_iff asciiWindows asciiWindows_foldsLetters .drive _ _ _
    (show DosPrefix asciiWindows false (wide "\\\\?\\") from
      .device (by decide) (by decide) (.inl rfl) (by decide))
    (show startsWithDrive (wide "D:\\Game\\game.exe") = true by decide) ⟨WChar.backslash, by decide, rfl⟩
    (by decide) (by decide)).mpr (.inr ⟨Root.noConfusion, fun root => ?_, fun _ _ _ _ c _ d => own c d⟩)
  exact absurd root (by decide)

private def looseRootFile : AddRequest where
  path := wide "C:\\mod"
  isDirectory _ := true
  attributesValid _ := true
  listing := .file (wide "a.bin") true true (.finished true)
  zipPackageOpen _ _ := none
  diskPathMemory := true
  nodeMemory := true
  memory := ⟨true, fun _ => ⟨true, true, true, true, 0, true, true⟩⟩

/-- A module in the root of a drive: the path `D:\a.bin` is the file `a.bin` of its folder, and the override of
`a.bin` is not found for it. -/
theorem prefixedLookup_drive :
    let s := vfsAddPackages asciiWindows vfsInit [looseRootFile]
    let folder := mlPathRemoveFilename asciiWindows (wide "D:\\game.exe")
    folder = wide "D:\\" ∧ SpellsFile asciiWindows folder (wide "a.bin") (wide "D:\\a.bin") ∧
      vfsLookup asciiWindows true s (wide "a.bin") = some (wide "C:\\mod\\a.bin") ∧
      vfsLookupPrefixedDomain asciiWindows s (wide "D:\\a.bin") folder = none ∧
      ¬PrefixedLookup asciiWindows folder (wide "a.bin") := by
  intro s folder
  have here : folder = wide "D:\\" := by decide
  have file : SpellsFile asciiWindows folder (wide "a.bin") (wide "D:\\a.bin") := by
    rw [here]
    exact ⟨[], wide "a.bin", ⟨.drive, [], wide "D:\\", [], wide "D:\\", .drive,
      show startsWithDrive (wide "D:\\") = true by decide, rfl, .drive, Spells.refl _, by decide,
      .inr (by decide)⟩, .nil, Spells.refl _⟩
  have found : vfsLookup asciiWindows true s (wide "a.bin") = some (wide "C:\\mod\\a.bin") := by
    decide
  have missed : vfsLookupPrefixedDomain asciiWindows s (wide "D:\\a.bin") folder = none := by decide
  refine ⟨here, file, found, missed, fun lookup => ?_⟩
  have same := lookup.spelled s _ file
  rw [missed, found] at same
  cases same

end Yafsml.Vfs
