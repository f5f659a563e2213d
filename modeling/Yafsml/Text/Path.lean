import Yafsml.Text.Wide

/-!
# Path helpers

The header `common/path.h`, and the `shlwapi` functions the loader calls on names.
-/

namespace Yafsml

def maxPath : Nat := 260

def mlPathMaxCch : Nat := 32768

/-- Whether `ml_path_buffer(count)` returns a buffer, when the allocation itself has the outcome
`memory`. -/
def mlPathBuffer (memory : Bool) (count : Nat) : Bool :=
  count ≠ 0 && count ≤ mlPathMaxCch && memory

def startsWithDrive : WString → Bool
  | _ :: d :: s :: _ => d == WChar.colon && isSeparator s
  | _ => false

/-- `ml_path_dos_body`: the DOS drive or UNC part of a disk path, and whether it is a UNC name. -/
def mlPathDosBody (win : Windows) (path : WString) : WString × Bool :=
  match path with
  | a :: b :: rest =>
      if isSeparator a && isSeparator b then
        match rest with
        | c :: d :: body =>
            if (c == WChar.question || c == WChar.dot) && isSeparator d then
              if win.wcsnicmpPrefix body (wide "UNC") && (body.drop 3).head?.any isSeparator then
                (body.drop 4, true)
              else (if startsWithDrive body then body else path, false)
            else (rest, true)
        | _ => (rest, true)
      else (path, false)
  | _ => (path, false)

def mlPathIsAbsolute : WString → Bool
  | a :: b :: c :: _ => (b == WChar.colon && isSeparator c) || (isSeparator a && isSeparator b)
  | _ => false

/-- `ml_path_extend` on a path whose copy can be allocated exactly when `memory` holds: a long DOS
or UNC name takes its extended form. -/
def mlPathExtend (memory : Bool) (path : WString) : Option WString :=
  if path.length < maxPath - 12 then some path
  else match path with
    | a :: b :: c :: rest =>
        if b == WChar.colon && c == WChar.backslash then
          if mlPathBuffer memory (4 + path.length + 1) then some (wide "\\\\?\\" ++ path) else none
        else if a == WChar.backslash && b == WChar.backslash && c != WChar.question &&
            c != WChar.dot then
          if mlPathBuffer memory (8 + path.length - 2 + 1) then
            some (wide "\\\\?\\UNC\\" ++ c :: rest)
          else none
        else some path
    | _ => some path

def mlPathFilename (path : WString) : WString :=
  (path.reverse.takeWhile fun c => !isSeparator c).reverse

/-- `ml_path_extension`: from the last dot of the file name. -/
def mlPathExtension (path : WString) : WString :=
  let filename := mlPathFilename path
  match filename.reverse.findIdx? (· == WChar.dot) with
  | some i => filename.drop (filename.length - (i + 1))
  | none => []

/-- `vfs_join`; `buffer` and `extended` are the outcomes of its two allocations. -/
def vfsJoin (buffer extended : Bool) (left right : WString) : Option WString :=
  if !buffer then none
  else
    let joint := if left ≠ [] ∧ left.getLast? ≠ some WChar.backslash then [WChar.backslash] else []
    mlPathExtend extended (left ++ joint ++ right)

/-- What may stand before the last component of a path. -/
def Separated (before : WString) : Prop := ∀ c, before.getLast? = some c → isSeparator c = true

/-- A component of a path: not empty, without separators. -/
structure Component (segment : WString) : Prop where
  nonempty : segment ≠ []
  separators : ∀ c ∈ segment, isSeparator c = false

/-- A component that names no stream: it has no colon. -/
structure Plain (segment : WString) : Prop extends Component segment where
  colon : WChar.colon ∉ segment

theorem Separated.suffix {before rest : WString} (separated : Separated before)
    (suffix : rest <:+ before) : Separated rest := by
  obtain ⟨gone, rfl⟩ := suffix
  intro c last
  refine separated c ?_
  rw [List.getLast?_append, last, Option.some_or]

theorem mlPathFilename_split (path : WString) :
    ∃ before, path = before ++ mlPathFilename path ∧ Separated before := by
  have split := congrArg List.reverse
    (List.takeWhile_append_dropWhile (p := fun c => !isSeparator c) (l := path.reverse))
  rw [List.reverse_append, List.reverse_reverse] at split
  refine ⟨_, split.symm, fun c last => ?_⟩
  rw [List.getLast?_reverse] at last
  have := List.head?_dropWhile_not (fun c => !isSeparator c) path.reverse
  rw [last] at this
  simpa using this

theorem not_isSeparator_of_mem_mlPathFilename {path : WString} {c : WChar}
    (member : c ∈ mlPathFilename path) : isSeparator c = false := by
  have all : (path.reverse.takeWhile fun c => !isSeparator c).all fun c => !isSeparator c :=
    List.all_takeWhile
  simpa using List.all_eq_true.mp all c (List.mem_reverse.mp member)

theorem mlPathFilename_append {before segment : WString} (separated : Separated before)
    (plain : ∀ c ∈ segment, isSeparator c = false) :
    mlPathFilename (before ++ segment) = segment := by
  unfold mlPathFilename
  rw [List.reverse_append, List.takeWhile_append_of_pos (by simpa using plain)]
  have stop : before.reverse.takeWhile (fun c => !isSeparator c) = [] := by
    cases same : before.reverse with
    | nil => rfl
    | cons c rest =>
        have last : before.getLast? = some c := by
          rw [← List.head?_reverse, same, List.head?_cons]
        simp [separated c last]
  rw [stop, List.append_nil, List.reverse_reverse]

theorem separated_backslash (directory : WString) : Separated (directory ++ [WChar.backslash]) := by
  intro c last
  rw [List.getLast?_concat, Option.some.injEq] at last
  rw [← last, isSeparator_backslash]

theorem mlPathFilename_backslash (directory : WString) {name : WString} (component : Component name) :
    mlPathFilename (directory ++ WChar.backslash :: name) = name := by
  rw [List.append_cons]
  exact mlPathFilename_append (separated_backslash directory) component.separators

/-- The scan of `PathFindExtensionW`; `last` is the text from the last dot that neither a backslash
nor a space follows. -/
def findExtension (last : WString) : WString → WString
  | [] => last
  | c :: rest =>
      if c == WChar.backslash || c == WChar.space then findExtension [] rest
      else if c == WChar.dot then findExtension (c :: rest) rest
      else findExtension last rest

/-- `PathFindExtensionW`, empty where it returns the end of the path. -/
def pathFindExtension (path : WString) : WString := findExtension [] path

def pathRemoveExtension (path : WString) : WString :=
  path.take (path.length - (pathFindExtension path).length)

def startsName : WString → Bool
  | [] => false
  | c :: _ => !isSeparator c

/-- The scan of `PathFindFileNameW`. -/
def findFileName (name : WString) : WString → WString
  | [] => name
  | c :: rest =>
      if (isSeparator c || c == WChar.colon) && startsName rest then findFileName rest rest
      else findFileName name rest

def pathFindFileName (path : WString) : WString := findFileName path path

theorem findExtension_suffix (last path : WString) :
    findExtension last path <:+ path ∨ findExtension last path = last := by
  induction path generalizing last with
  | nil => exact .inr rfl
  | cons c rest ih =>
      rw [findExtension]
      split
      · rcases ih [] with inside | same
        · exact .inl (inside.trans (List.suffix_cons c rest))
        · exact .inl (same.symm ▸ List.nil_suffix)
      split
      · rcases ih (c :: rest) with inside | same
        · exact .inl (inside.trans (List.suffix_cons c rest))
        · exact .inl (same.symm ▸ List.suffix_rfl)
      · rcases ih last with inside | same
        · exact .inl (inside.trans (List.suffix_cons c rest))
        · exact .inr same

theorem pathFindExtension_suffix (path : WString) : pathFindExtension path <:+ path := by
  rcases findExtension_suffix [] path with inside | same
  · exact inside
  · rw [pathFindExtension, same]
    exact List.nil_suffix

theorem findExtension_dot {last path : WString}
    (open_ : last = [] ∨ ∃ seen, last = WChar.dot :: (seen ++ path) ∧ WChar.dot ∉ seen) :
    findExtension last path = [] ∨
      ∃ rest, findExtension last path = WChar.dot :: rest ∧ WChar.dot ∉ rest := by
  induction path generalizing last with
  | nil =>
      rcases open_ with rfl | ⟨seen, rfl, dotless⟩
      · exact .inl rfl
      · exact .inr ⟨seen, by rw [findExtension, List.append_nil], dotless⟩
  | cons c path ih =>
      rw [findExtension]
      split
      · exact ih (.inl rfl)
      split
      · rename_i dot
        rw [beq_iff_eq] at dot
        subst dot
        exact ih (.inr ⟨[], rfl, List.not_mem_nil⟩)
      · rename_i other
        refine ih (open_.imp id ?_)
        rintro ⟨seen, rfl, dotless⟩
        refine ⟨seen ++ [c], by rw [List.append_assoc, List.singleton_append], ?_⟩
        rw [List.mem_append, List.mem_singleton, not_or]
        exact ⟨dotless, fun same => other (beq_iff_eq.mpr same.symm)⟩

theorem pathFindExtension_dot (path : WString) :
    pathFindExtension path = [] ∨ ∃ rest, pathFindExtension path = WChar.dot :: rest ∧ WChar.dot ∉ rest :=
  findExtension_dot (.inl rfl)

theorem pathRemoveExtension_append (path : WString) :
    pathRemoveExtension path ++ pathFindExtension path = path := by
  obtain ⟨stem, split⟩ := pathFindExtension_suffix path
  have length := congrArg List.length split
  rw [List.length_append] at length
  have taken : path.take stem.length = stem := by rw [← split, List.take_left]
  rw [pathRemoveExtension, show path.length - (pathFindExtension path).length = stem.length by omega,
    taken, split]

theorem findExtension_append {after extension : WString} (decides : ∀ last, findExtension last after = extension)
    (last before : WString) : findExtension last (before ++ after) = extension := by
  induction before generalizing last with
  | nil => exact decides last
  | cons c rest ih =>
      rw [List.cons_append, findExtension]
      split
      · exact ih _
      split
      · exact ih _
      · exact ih _

theorem findExtension_backslash (last before after : WString) :
    findExtension last (before ++ WChar.backslash :: after) = pathFindExtension after :=
  findExtension_append (fun _ => rfl) last before

/-- Nothing in front of a dot matters. -/
theorem findExtension_of_dot {text : WString} (dot : WChar.dot ∈ text) (last last' : WString) :
    findExtension last text = findExtension last' text := by
  induction text generalizing last last' with
  | nil => cases dot
  | cons c rest ih =>
      rw [findExtension, findExtension]
      split
      · rfl
      split
      · rfl
      · rename_i other
        rw [beq_iff_eq] at other
        exact ih ((List.mem_cons.mp dot).resolve_left fun same => other same.symm) _ _

theorem pathFindExtension_backslash (before after : WString) :
    pathFindExtension (before ++ WChar.backslash :: after) = pathFindExtension after :=
  findExtension_backslash [] before after

example : pathFindExtension (wide "C:\\r.d\\my save.sl2.") = wide "." := by decide

theorem pathRemoveExtension_isPrefix (path : WString) : pathRemoveExtension path <+: path :=
  List.take_prefix _ _

theorem findFileName_suffix {name text : WString} (inside : text <:+ name) : findFileName name text <:+ name := by
  induction text generalizing name with
  | nil => exact List.suffix_rfl
  | cons c rest ih =>
      have later := (List.suffix_cons c rest).trans inside
      rw [findFileName]
      split
      · exact (ih List.suffix_rfl).trans later
      · exact ih later

theorem pathFindFileName_suffix (path : WString) : pathFindFileName path <:+ path :=
  findFileName_suffix List.suffix_rfl

theorem findFileName_plain (name : WString) {text : WString}
    (separators : ∀ c ∈ text, isSeparator c = false) (colon : WChar.colon ∉ text) :
    findFileName name text = name := by
  induction text with
  | nil => rfl
  | cons c rest ih =>
      rw [List.mem_cons, not_or] at colon
      have plain : (isSeparator c || c == WChar.colon) = false := by
        rw [separators c (List.mem_cons_self ..), Bool.false_or, beq_eq_false_iff_ne]
        exact Ne.symm colon.1
      rw [findFileName, plain, Bool.false_and, if_neg Bool.false_ne_true]
      exact ih (fun d member => separators d (List.mem_cons_of_mem _ member)) colon.2

theorem Component.starts {name : WString} (component : Component name) : startsName name = true := by
  obtain ⟨c, rest, rfl⟩ := List.exists_cons_of_ne_nil component.nonempty
  simp [startsName, component.separators c]

theorem pathFindFileName_component (directory : WString) {name : WString} (component : Component name) :
    pathFindFileName (directory ++ WChar.backslash :: name) = pathFindFileName name := by
  have scanned (start : WString) :
      findFileName start (directory ++ WChar.backslash :: name) = findFileName name name := by
    induction directory generalizing start with
    | nil =>
        rw [List.nil_append, findFileName, component.starts, isSeparator_backslash, Bool.true_or,
          Bool.true_and, if_pos rfl]
    | cons c rest ih =>
        rw [List.cons_append, findFileName]
        split
        · exact ih _
        · exact ih _
  exact scanned _

theorem pathFindFileName_backslash (directory : WString) {name : WString} (plain : Plain name) :
    pathFindFileName (directory ++ WChar.backslash :: name) = name := by
  rw [pathFindFileName_component directory plain.toComponent]
  exact findFileName_plain name plain.separators plain.colon

/-- The scan begins anew behind a colon that a name follows, so a colon is left at the end at most. -/
theorem findFileName_split {start seen text : WString} (whole : start = seen ++ text) (some : start ≠ [])
    (clear : WChar.colon ∉ seen) (separators : ∀ c ∈ text, isSeparator c = false) :
    ∃ front, start = front ++ findFileName start text ∧ findFileName start text ≠ [] ∧
      (front = [] ∨ front.getLast? = Option.some WChar.colon) ∧
      (WChar.colon ∈ findFileName start text → (findFileName start text).getLast? = Option.some WChar.colon) := by
  induction text generalizing start seen with
  | nil =>
      rw [List.append_nil] at whole
      subst whole
      exact ⟨[], rfl, some, .inl rfl, fun member => absurd member clear⟩
  | cons c rest ih =>
      have later (d : WChar) (member : d ∈ rest) : isSeparator d = false :=
        separators d (List.mem_cons_of_mem _ member)
      rw [findFileName, separators c List.mem_cons_self, Bool.false_or]
      by_cases colon : c = WChar.colon
      · subst colon
        rw [beq_self_eq_true, Bool.true_and]
        cases rest with
        | nil =>
            rw [startsName, if_neg Bool.false_ne_true, findFileName]
            exact ⟨[], rfl, some, .inl rfl, fun _ => by rw [whole, List.getLast?_concat]⟩
        | cons d rest =>
            have starts : startsName (d :: rest) = true := by simp [startsName, later d]
            obtain ⟨front, split, present, border, last⟩ :=
              @ih (d :: rest) [] rfl (List.cons_ne_nil _ _) List.not_mem_nil later
            rw [if_pos starts]
            refine ⟨seen ++ WChar.colon :: front, ?_, present, .inr ?_, last⟩
            · conv_lhs => rw [whole, split]
              rw [List.append_assoc, List.cons_append]
            · rw [List.getLast?_append, List.getLast?_cons]
              rcases border with rfl | border
              · rfl
              · rw [border]
                rfl
      · rw [beq_eq_false_iff_ne.mpr colon, Bool.false_and, if_neg Bool.false_ne_true]
        have whole' : start = seen ++ [c] ++ rest := by rw [whole, List.append_cons]
        apply ih whole' some _ later
        rw [List.mem_append, List.mem_singleton, not_or]
        exact ⟨clear, Ne.symm colon⟩

theorem Component.fileName {name : WString} (component : Component name) :
    ∃ front, name = front ++ pathFindFileName name ∧ pathFindFileName name ≠ [] ∧
      (front = [] ∨ front.getLast? = some WChar.colon) ∧
      (WChar.colon ∈ pathFindFileName name → (pathFindFileName name).getLast? = some WChar.colon) :=
  findFileName_split rfl component.nonempty List.not_mem_nil component.separators

example : pathFindFileName (wide "C:\\r.d\\my save.sl2") = wide "my save.sl2" := by decide

end Yafsml
