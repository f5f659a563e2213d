import Yafsml.Text.Folder

/-!
# Resolving paths

`ml_path_resolve_alloc` and what it calls.
-/

namespace Yafsml

/-- The last errors that `ml_path_resolve_alloc` sets; `fullPathName` stands for that of
`GetFullPathNameW`. -/
inductive PathError
  | invalidParameter
  | badPathname
  | filenameExcedRange
  | notEnoughMemory
  | fullPathName
deriving DecidableEq, Repr

inductive PathAllocation
  | name
  | directory
  | joined
  | full
  | extended
deriving DecidableEq, Repr

/-- `ml_path_buffer`, with the error it sets. -/
def mlPathAllocate (memory : Bool) (count : Nat) : Except PathError Unit :=
  if mlPathBuffer memory count then .ok ()
  else .error (if mlPathBuffer true count then .notEnoughMemory else .filenameExcedRange)

def toBackslash (c : WChar) : WChar := if c == WChar.slash then WChar.backslash else c

def withBackslashes (path : WString) : WString := path.map toBackslash

def mlPathNormalizeInput (win : Windows) (path : WString) : WString :=
  let path := withBackslashes path
  let (body, unc) := mlPathDosBody win path
  path.take (if unc then 2 else 0) ++ body

/-- The test for names like `C:` and `C:foo`, after `ml_path_normalize_input`. -/
def driveRelative : WString → Bool
  | _ :: c :: rest => c == WChar.colon && rest.head? != some WChar.backslash
  | _ => false

/-- `requested`, or `base` in place of a missing or empty name. -/
def requestedName (base requested : Option WString) : Option WString :=
  let requested := if requested = none ∨ requested = some [] then base else requested
  if requested = some [] then none else requested

/-- The name that `GetFullPathNameW` is asked about. -/
def mlPathJoin (win : Windows) (memory : PathAllocation → Bool) (base : Option WString)
    (name : WString) : Except PathError WString :=
  match base, mlPathIsAbsolute name with
  | some base, false => do
      mlPathAllocate (memory .directory) (base.length + 1)
      let directory := mlPathNormalizeInput win base
      if !mlPathIsAbsolute directory then throw .badPathname
      let rooted := name.head? == some WChar.backslash
      let baseLength := if rooted then mlPathRootLength win directory else directory.length
      if baseLength = 0 then throw .badPathname
      let directory := (directory.take baseLength).rdropWhile (· == WChar.backslash)
      let name := if rooted then name.tail else name
      mlPathAllocate (memory .joined)
        (directory.length + name.length + if directory = [] then 1 else 2)
      return if directory = [] then name else directory ++ WChar.backslash :: name
  | _, _ => do
      mlPathAllocate (memory .joined) (name.length + 1)
      return name

/-- What `GetFullPathNameW` returns for a buffer of `capacity` characters, where the full path is
`text`: its length, or the size of a buffer that is large enough; 0 where it fails. -/
def getFullPathName (text : Option WString) (capacity : Nat) : Nat :=
  match text with
  | none => 0
  | some text => if text.length < capacity then text.length else text.length + 1

/-- The loop around `GetFullPathNameW`. -/
def fullPathLoop (text : Option WString) (memory : Bool) (capacity : Nat) :
    Except PathError WString :=
  if capacity = 0 then .error .fullPathName
  else
    match mlPathAllocate memory capacity with
    | .error error => .error error
    | .ok () =>
        let length := getFullPathName text capacity
        if length = 0 then .error .fullPathName
        else if length < capacity then .ok (text.getD [])
        else fullPathLoop text memory length
termination_by (text.getD []).length + 1 - capacity
decreasing_by
  rename_i present long
  cases text with
  | none => exact absurd rfl present
  | some text =>
      by_cases fits : text.length < capacity
      · exact absurd (show getFullPathName (some text) capacity < capacity by
          simp [getFullPathName, fits]) long
      · show text.length + 1 - getFullPathName (some text) capacity < text.length + 1 - capacity
        simp only [getFullPathName, if_neg fits]
        omega

/-- `full` is `GetFullPathNameW` at the current directory of the call, `none` where it fails;
`memory` tells how the allocations end. -/
def mlPathResolveAlloc (win : Windows) (full : WString → Option WString)
    (memory : PathAllocation → Bool) (base requested : Option WString) :
    Except PathError WString :=
  match requestedName base requested with
  | none => .error .invalidParameter
  | some requested => do
      mlPathAllocate (memory .name) (requested.length + 1)
      let name := mlPathNormalizeInput win requested
      if driveRelative name then throw .badPathname
      let joined ← mlPathJoin win memory base name
      let text ← fullPathLoop (full joined) (memory .full) (getFullPathName (full joined) 0)
      match mlPathExtend (memory .extended) text with
      | some path => .ok path
      | none =>
          .error (if (mlPathExtend true text).isSome then .notEnoughMemory else .filenameExcedRange)

end Yafsml
