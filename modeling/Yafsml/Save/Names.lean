import Yafsml.Save.Mapping
import Yafsml.Text.Case

/-!
# Names of targets

A target differs from its save in the file name only: behind a plain directory, the mapping is a
function of names.
-/

namespace Yafsml.Save

open Vfs

section Directory

variable {win : Windows}

theorem isBackup_backslash (directory name : WString) :
    isBackup win (directory ++ WChar.backslash :: name) = isBackup win name := by
  rw [isBackup, pathFindExtension_backslash, isBackup]

theorem pathRemoveExtension_backslash (directory name : WString) :
    pathRemoveExtension (directory ++ WChar.backslash :: name) =
      directory ++ WChar.backslash :: pathRemoveExtension name := by
  have whole := pathRemoveExtension_append (directory ++ WChar.backslash :: name)
  rw [pathFindExtension_backslash] at whole
  apply List.append_cancel_right
  apply whole.trans
  rw [List.append_assoc, List.cons_append, pathRemoveExtension_append]

theorem logicalSource_backslash (directory name : WString) :
    logicalSource win (directory ++ WChar.backslash :: name) =
      directory ++ WChar.backslash :: logicalSource win name := by
  unfold logicalSource
  rw [isBackup_backslash]
  split
  · exact pathRemoveExtension_backslash directory name
  · rfl

theorem logicalExtension_backslash (directory name : WString) :
    logicalExtension win (directory ++ WChar.backslash :: name) = logicalExtension win name := by
  rw [logicalExtension, logicalSource_backslash, pathFindExtension_backslash, logicalExtension]

end Directory

section Backup

variable {win : Windows}

theorem findExtension_backup (last path : WString) : findExtension last (path ++ backupExtension) = backupExtension :=
  findExtension_append (fun _ => rfl) last path

variable (self : win.lstrcmpiEqual backupExtension backupExtension = true)

include self

theorem isBackup_backup (path : WString) : isBackup win (path ++ backupExtension) = true := by
  rw [isBackup, pathFindExtension, findExtension_backup]
  exact self

theorem logicalSource_backup (path : WString) : logicalSource win (path ++ backupExtension) = path := by
  rw [logicalSource, if_pos (isBackup_backup self path), pathRemoveExtension, pathFindExtension, findExtension_backup,
    List.length_append, Nat.add_sub_cancel, List.take_left]

end Backup

/-- The name that the override gives to the save `logical`, or to the backup of this save. -/
def renamed (win : Windows) (backup : Bool) (logical overrideName : WString) : WString :=
  buildOverrideName win logical overrideName ++ if backup then backupExtension else []

theorem component_of_isPrefix {name text : WString} (component : Component name) (inside : text <+: name)
    (nonempty : text ≠ []) : Component text :=
  ⟨nonempty, fun c member => component.separators c (inside.subset member)⟩

theorem logicalSource_isPrefix (win : Windows) (name : WString) : logicalSource win name <+: name := by
  unfold logicalSource
  split
  · exact pathRemoveExtension_isPrefix name
  · exact List.prefix_refl name

theorem backupExtension_plain : Plain backupExtension := by
  have separators : backupExtension.all (fun c => !isSeparator c) = true := by decide
  refine ⟨⟨by decide, fun c member => ?_⟩, by decide⟩
  simpa using List.all_eq_true.mp separators c member

theorem joinPath_backslash (directory right : WString) :
    joinPath (directory ++ [WChar.backslash]) right = directory ++ WChar.backslash :: right := by
  simp [joinPath]

theorem joinPath_colon {directory : WString} (last : directory.getLast? = some WChar.colon) (right : WString) :
    joinPath directory right = directory ++ WChar.backslash :: right := by
  rw [joinPath, last, Option.any_some, if_pos (by decide), List.append_assoc, List.singleton_append]

/-- The part of a name up to its last colon becomes a directory of the target. -/
theorem targetFor_component {win : Windows} (directory : WString) {name : WString}
    (component : Component (logicalSource win name)) (overrideName : WString) :
    let logical := logicalSource win name
    let own := renamed win (isBackup win name) (pathFindFileName logical) overrideName
    pathFindFileName logical = logical ∧
        targetFor win (directory ++ WChar.backslash :: name) overrideName = directory ++ WChar.backslash :: own ∨
      ∃ front, front.getLast? = some WChar.colon ∧ logical = front ++ pathFindFileName logical ∧
        targetFor win (directory ++ WChar.backslash :: name) overrideName =
          directory ++ WChar.backslash :: (front ++ WChar.backslash :: own) := by
  intro logical own
  obtain ⟨front, split, present, border, last⟩ := component.fileName
  have folder : directoryOf (directory ++ WChar.backslash :: logical) = directory ++ WChar.backslash :: front := by
    have whole : directory ++ WChar.backslash :: logical =
        directory ++ WChar.backslash :: front ++ pathFindFileName logical := by
      rw [List.append_assoc, List.cons_append, ← split]
    rw [directoryOf, pathFindFileName_component directory component, whole, List.length_append,
      Nat.add_sub_cancel, List.take_left]
  have whole : targetFor win (directory ++ WChar.backslash :: name) overrideName =
      joinPath (directory ++ WChar.backslash :: front)
        (buildOverrideName win (pathFindFileName logical) overrideName) ++
          if isBackup win name then backupExtension else [] := by
    unfold targetFor
    dsimp only
    rw [logicalSource_backslash, pathFindFileName_component directory component, isBackup_backslash, folder]
  rcases border with rfl | border
  · refine .inl ⟨split.symm, ?_⟩
    rw [whole, joinPath_backslash, List.append_assoc, List.cons_append]
    rfl
  · refine .inr ⟨front, border, split, ?_⟩
    have behind : (directory ++ WChar.backslash :: front).getLast? = some WChar.colon := by
      rw [List.getLast?_append, List.getLast?_cons, border]
      rfl
    rw [whole, joinPath_colon behind]
    simp [own, renamed]

theorem targetFor_ne_nil {win : Windows} (directory : WString) {name : WString}
    (component : Component (logicalSource win name)) (overrideName : WString) :
    targetFor win (directory ++ WChar.backslash :: name) overrideName ≠ [] := by
  rcases targetFor_component directory component overrideName with ⟨_, target⟩ | ⟨front, _, _, target⟩
  · rw [target]
    simp
  · rw [target]
    simp

theorem targetFor_backslash {win : Windows} (directory : WString) {name : WString} (plain : Plain name)
    (present : logicalSource win name ≠ []) (overrideName : WString) :
    targetFor win (directory ++ WChar.backslash :: name) overrideName =
      directory ++ WChar.backslash :: renamed win (isBackup win name) (logicalSource win name) overrideName := by
  have inside := logicalSource_isPrefix win name
  rcases targetFor_component directory (component_of_isPrefix plain.toComponent inside present) overrideName with
    ⟨own, target⟩ | ⟨front, border, split, _⟩
  · rw [target, own]
  · have member : WChar.colon ∈ logicalSource win name := by
      rw [split]
      exact List.mem_append_left _ (List.mem_of_getLast? border)
    exact absurd (inside.subset member) plain.colon

/-- What `ml_save_mapping_add_extension` has checked of an entry. -/
structure Accepted (win : Windows) (entry : MappingEntry) : Prop where
  dotted : entry.extension.head? = some WChar.dot
  valid : validOverrideName win entry.overrideName = true

theorem findOverride_valid {win : Windows} {mappings : List MappingEntry}
    (accepted : ∀ entry ∈ mappings, Accepted win entry) {extension overrideName : WString}
    (mapped : findOverride win mappings extension = some overrideName) : validOverrideName win overrideName = true := by
  obtain ⟨entry, first, rfl⟩ := Option.map_eq_some_iff.mp mapped
  exact (accepted entry (List.mem_of_find?_eq_some first)).valid

theorem configure_accepted (win : Windows) (root : Option WString)
    (extensions : List (WString × WString)) :
    ∀ entry ∈ (configure win root extensions).mappings, Accepted win entry := by
  have added (s : SaveMapping) (accepted : ∀ entry ∈ s.mappings, Accepted win entry) :
      ∀ entry ∈ (extensions.foldl (fun s extension =>
        (mlSaveMappingAddExtension win extension.1 extension.2 s).1) s).mappings,
        Accepted win entry := by
    induction extensions generalizing s with
    | nil => exact accepted
    | cons extension rest ih =>
        refine ih _ ?_
        unfold mlSaveMappingAddExtension
        dsimp only
        split
        · rename_i checked
          simp only [Bool.and_eq_true, decide_eq_true_eq] at checked
          intro entry member
          rcases List.mem_append.mp member with member | member
          · exact accepted entry member
          · obtain rfl := List.mem_singleton.mp member
            exact ⟨checked.1.1.1.1, checked.1.1.2⟩
        · unfold rememberFailedExtension
          split
          · exact accepted
          split
          · exact accepted
          split <;> exact accepted
  exact added _ fun entry member => (by cases member)

theorem mem_renamed {win : Windows} {overrideName : WString} {backup : Bool} {logical : WString} {c : WChar}
    (member : c ∈ renamed win backup logical overrideName) :
    c ∈ logical ∨ c ∈ overrideName ∨ c ∈ backupExtension := by
  have built (inside : c ∈ buildOverrideName win logical overrideName) : c ∈ logical ∨ c ∈ overrideName := by
    unfold buildOverrideName at inside
    split at inside
    · exact .inr inside
    split at inside
    · exact .inl inside
    · exact (List.mem_append.mp inside).imp (fun stem => (pathRemoveExtension_isPrefix logical).subset stem) id
  rcases List.mem_append.mp member with inside | inside
  · exact (built inside).imp id .inl
  · cases backup with
    | true => exact .inr (.inr inside)
    | false => cases inside

section Valid

variable {win : Windows} {overrideName : WString} (valid : validOverrideName win overrideName = true)

include valid

theorem validOverrideName_plain : Plain overrideName ∧ overrideName.getLast? ≠ some WChar.dot := by
  unfold validOverrideName at valid
  split at valid
  · cases valid
  rename_i shape
  simp only [not_or] at shape
  split at valid
  · cases valid
  rename_i characters
  have allowed (c : WChar) (member : c ∈ overrideName) : c ∉ reservedCharacters := by
    intro reserved
    exact characters (List.any_eq_true.mpr ⟨c, member, by simp [reserved]⟩)
  refine ⟨⟨⟨?_, fun c member => ?_⟩, fun member => allowed _ member (by decide)⟩, shape.2.2.2⟩
  · rintro rfl
    exact shape.1 rfl
  · simp only [isSeparator, Bool.or_eq_false_iff, beq_eq_false_iff_ne]
    refine ⟨?_, ?_⟩
    · rintro rfl
      exact allowed _ member (by decide)
    · rintro rfl
      exact allowed _ member (by decide)

theorem buildOverrideName_ne_nil (name : WString) : buildOverrideName win name overrideName ≠ [] := by
  have own := (validOverrideName_plain valid).1.nonempty
  unfold buildOverrideName
  split
  · exact own
  split
  · rename_i ends
    rw [Bool.and_eq_true, decide_eq_true_eq] at ends
    exact List.ne_nil_of_length_pos (by omega)
  · exact List.append_ne_nil_of_right_ne_nil _ own

/-- A name that ends in the override, up to the case mapping, ends in the same mark. -/
theorem buildOverrideName_last (crt : KeepsMarks win.crtFold) {mark : WChar} (among : mark ∈ pathMarks)
    (other : overrideName.getLast? ≠ some mark) (name : WString) :
    (buildOverrideName win name overrideName).getLast? ≠ some mark := by
  have own := (validOverrideName_plain valid).1.nonempty
  unfold buildOverrideName
  split
  · exact other
  split
  · rename_i same
    intro last
    rw [Bool.and_eq_true, decide_eq_true_eq, Windows.wcsicmpEqual, beq_iff_eq] at same
    have folded := congrArg List.getLast? same.2
    rw [List.getLast?_map, List.getLast?_map, List.getLast?_drop, if_neg (by
      have := List.length_pos_iff.mpr own
      omega), last, Option.map_some] at folded
    obtain ⟨c, found, mapped⟩ := Option.map_eq_some_iff.mp folded.symm
    have fixed := (crt mark among mark).mpr rfl
    exact other (by rw [found, (crt mark among c).mp (mapped.trans fixed)])
  · rw [List.getLast?_append, Option.or_of_isSome (List.getLast?_isSome.mpr own)]
    exact other

theorem renamed_last (crt : KeepsMarks win.crtFold) (backup : Bool) (logical : WString) :
    (renamed win backup logical overrideName).getLast? ≠ some WChar.dot := by
  cases backup with
  | true =>
      rw [renamed, if_pos rfl, List.getLast?_append, show backupExtension.getLast? = some 107 by decide, Option.some_or]
      decide
  | false =>
      rw [renamed, if_neg Bool.false_ne_true, List.append_nil]
      exact buildOverrideName_last valid crt (by decide) (validOverrideName_plain valid).2 logical

theorem renamed_component {logical : WString} (component : Component logical) (backup : Bool) :
    Component (renamed win backup logical overrideName) := by
  refine ⟨List.append_ne_nil_of_left_ne_nil (buildOverrideName_ne_nil valid logical) _, fun c member => ?_⟩
  rcases mem_renamed member with own | own | own
  · exact component.separators c own
  · exact (validOverrideName_plain valid).1.separators c own
  · exact backupExtension_plain.separators c own

theorem renamed_plain {logical : WString} (plain : Plain logical) (backup : Bool) :
    Plain (renamed win backup logical overrideName) := by
  refine ⟨renamed_component valid plain.toComponent backup, fun member => ?_⟩
  rcases mem_renamed member with own | own | own
  · exact plain.colon own
  · exact (validOverrideName_plain valid).1.colon own
  · exact backupExtension_plain.colon own

end Valid

end Yafsml.Save
