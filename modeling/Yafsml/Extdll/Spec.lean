import Yafsml.Extdll.Prepare
import Yafsml.Steam.VdfInteger
import Yafsml.Text.Wide

/-!
# Specifications of external DLLs

`extdlls_add_spec`, with every allocation granted: a path, an initializer behind a colon, and conditions
behind bars. `strchr` and the NUL written at its answer cut a text in two.
-/

namespace Yafsml.Extdll
open Steam (Text ascii decimal digitsValue isDigit)

def colon : UInt8 := 58
def bar : UInt8 := 124

/-- `extdll_t`, as far as a specification sets it. -/
structure SpecDll where
  name : Text
  basePath : WString
  initializer : Option Text
  stage : Stage
  delayMs : UInt32
  after : List Text
deriving DecidableEq

/-- The text before the first `mark`, and the text behind it. -/
def cut (mark : UInt8) : Text → Text × Option Text
  | [] => ([], none)
  | c :: rest =>
      if c = mark then ([], some rest)
      else
        let (before, behind) := cut mark rest
        (c :: before, behind)

def isPathSeparator (c : UInt8) : Bool := c = 92 || c = 47

def prefixLength : Text → Nat
  | a :: b :: c :: d :: _ =>
      if isPathSeparator a && isPathSeparator b && (c = 63 || c = 46) && isPathSeparator d then 4 else 0
  | _ => 0

/-- `path_start`: behind the prefix and the drive colon. -/
def pathStart (spec : Text) : Nat :=
  match spec.drop (prefixLength spec) with
  | _ :: c :: _ => if c = colon then prefixLength spec + 2 else prefixLength spec
  | _ => prefixLength spec

def cutInitializer (spec : Text) : Text × Option Text :=
  let (before, initializer) := cut colon (spec.drop (pathStart spec))
  (spec.take (pathStart spec) ++ before, initializer)

def ulongMax : Nat := 2 ^ 32 - 1

/-- `strtoul` on a text that starts with a digit: the number, what is left of the text and whether it is out of
range. -/
def strtoul (text : Text) : Nat × Text × Bool :=
  let number := digitsValue (text.takeWhile isDigit)
  let rest := text.dropWhile isDigit
  if ulongMax < number then (ulongMax, rest, true) else (number, rest, false)

def parseDelay (value : Text) : Option UInt32 :=
  if !value.head?.any isDigit then none
  else
    let (parsed, rest, overflow) := strtoul value
    if overflow ∨ rest = value ∨ rest ≠ [] ∨ UInt32.size ≤ parsed then none else some parsed.toUInt32

def readCondition (condition : Text) (dll : SpecDll) : SpecDll :=
  if condition = ascii "early" then
    if dll.stage ≠ .normal then dll else { dll with stage := .early }
  else if condition = ascii "data_ready" then
    if dll.stage ≠ .normal then dll else { dll with stage := .dataReady }
  else if condition.take 6 = ascii "delay," then
    match parseDelay (condition.drop 6) with
    | none => dll
    | some delayMs => if dll.stage ≠ .normal then dll else { dll with stage := .delay, delayMs }
  else if condition.take 6 = ascii "after," ∧ condition.drop 6 ≠ [] then
    { dll with after := dll.after ++ [condition.drop 6] }
  else dll

/-- `fuel` bounds the number of conditions. -/
def readConditions : (fuel : Nat) → Option Text → SpecDll → SpecDll
  | fuel + 1, some (c :: rest), dll =>
      let (condition, next) := cut bar (c :: rest)
      readConditions fuel next (readCondition condition dll)
  | _, _, dll => dll

/-- `decode` is `MultiByteToWideChar` for UTF-8. -/
def extdllsAddSpec (decode : Text → Option WString) (name value : Text) (dlls : List SpecDll) : List SpecDll :=
  let (spec, conditions) := cut bar value
  let (path, initializer) := cutInitializer spec
  if initializer = some [] then dlls
  else
    match decode path with
    | none => dlls
    | some basePath =>
        if basePath.length + 1 ≤ 1 then dlls
        else dlls ++ [readConditions (value.length + 1) conditions ⟨name, basePath, initializer, .normal, 0, []⟩]

end Yafsml.Extdll
