import Mathlib.Algebra.Group.Int.Defs
import Mathlib.Algebra.GroupWithZero.Nat
import Yafsml.Steam.VdfConditional

/-! # Reading a VDF text -/

namespace Yafsml.Steam

def intMax : Nat := 2 ^ 31 - 1

/-- An object without a value, with a block or with a string. -/
inductive VdfObject where
  | none (key : Option Text)
  | array (key : Option Text) (children : List VdfObject)
  | string (key : Option Text) (value : Text)

def VdfObject.key : VdfObject → Option Text
  | .none key => key
  | .array key _ => key
  | .string key _ => key

def longMax : Int := 2 ^ 31 - 1
def longMin : Int := -2 ^ 31

/-- The space, `+`, `,`, `-`, `.` and the digits. -/
def isNumberChar (c : UInt8) : Bool := c = blank || (43 ≤ c && c ≤ 46) || isDigit c

def digitsValue (digits : Text) : Nat := digits.foldl (fun n c => 10 * n + (c.toNat - 48)) 0

def strtol (text : Text) : Int × Text × Bool :=
  let signed := text.dropWhile isSpace
  let (negative, unsigned) := match signed with
    | c :: rest => if c = 45 then (true, rest) else if c = 43 then (false, rest) else (false, signed)
    | [] => (false, [])
  let digits := unsigned.takeWhile isDigit
  if digits = [] then (0, text, false)
  else
    let rest := unsigned.dropWhile isDigit
    let number : Int := if negative then -(digitsValue digits : Int) else digitsValue digits
    if longMax < number then (longMax, rest, true)
    else if number < longMin then (longMin, rest, true)
    else (number, rest, false)

def formatLong (number : Int) : Text :=
  let digits := (Nat.toDigits 10 number.natAbs).map fun c => c.toNat.toUInt8
  if number < 0 then 45 :: digits else digits

def storedValue (value : Text) : Text :=
  if value ≠ [] ∧ value.all isNumberChar then
    let (number, rest, overflow) := strtol value
    if (rest = [] ∧ value.head? ≠ some 48 ∧ overflow = false) ∨ value = [48] then formatLong number else value
  else value

def VdfParser.fail (p : VdfParser) : VdfParser := { p with error := true }

variable (alloc : Nat → Bool)

/-- `alloc` says which allocations succeed; each one that does not is an error. -/
def allocate (p : VdfParser) : Bool × VdfParser :=
  let ok := alloc p.attempts
  (ok, { p with attempts := p.attempts + 1, error := p.error || !ok })

def newObject (p : VdfParser) : Bool × VdfParser :=
  match allocate alloc p with
  | (false, p) => (false, p)
  | (true, p) => allocate alloc p

def appendChild (accepted : Bool) (children : List VdfObject) (child : VdfObject) (p : VdfParser) :
    List VdfObject × VdfParser :=
  if p.error || !accepted then (children, p)
  else
    match allocate alloc p with
    | (false, p) => (children, p)
    | (true, p) => (children ++ [child], p)

def hasKey (key : Text) (object : VdfObject) : Bool := object.key.any fun key' => asciiEqual key' key

def removeFirstNamed (children : List VdfObject) (key : Text) : List VdfObject :=
  children.eraseP (hasKey key)

def afterConditional (r : VdfRead) (accepted : Bool) : VdfRead × Bool :=
  match r.conditional, r.token with
  | true, some token => (readToken r.parser, evaluateConditional token)
  | _, _ => (r, accepted)

/-- The token of the value, whether its key is accepted, and the children that are left. -/
structure VdfValue where
  read : VdfRead
  accepted : Bool
  children : List VdfObject

def readValue (p : VdfParser) (children : List VdfObject) (key : Text) : VdfValue :=
  let (r, accepted) := afterConditional (readToken p) true
  if r.is equals then
    let r := readToken r.parser
    if r.conditional then
      let (r, accepted) := afterConditional r accepted
      ⟨r, accepted, if accepted then removeFirstNamed children key else children⟩
    else ⟨r, accepted, children⟩
  else ⟨r, accepted, children⟩

def VdfRead.isNoValue (r : VdfRead) : Bool :=
  r.token.isNone || r.is closeBrace || (!r.is openBrace && r.conditional)

structure VdfEntry where
  child : VdfObject
  accepted : Bool
  children : List VdfObject
  parser : VdfParser

/-- Stores a value and looks one token ahead for a conditional. -/
def loadString (v : VdfValue) (key : Text) : VdfEntry :=
  match allocate alloc v.read.parser with
  | (false, p) => ⟨.none (some key), v.accepted, v.children, p⟩
  | (true, p) =>
      let child := VdfObject.string (some key) (storedValue (v.read.token.getD []))
      let peek := readToken p
      if peek.conditional then
        let accepted := evaluateConditional (peek.token.getD [])
        ⟨child, accepted, if accepted then removeFirstNamed v.children key else v.children, peek.parser⟩
      else ⟨child, v.accepted, v.children, { peek.parser with rest := p.rest, overflow := false }⟩

/-- The entries of a block from here on. `fuel` bounds how many entries are read, and how deeply. -/
def loadEntries : (fuel depth : Nat) → VdfParser → List VdfObject → List VdfObject × VdfParser
  | 0, _, p, children => (children, p.fail)
  | fuel + 1, depth, p, children =>
      let r := readToken p
      match r.token with
      | none => (children, r.parser.fail)
      | some key =>
          if r.parser.error = true ∨ key = [] then (children, r.parser.fail)
          else if r.is closeBrace then (children, r.parser)
          else
            match newObject alloc r.parser with
            | (false, p) => (children, p)
            | (true, p) =>
                let v := readValue p children key
                if v.read.isNoValue then (v.children, v.read.parser.fail)
                else
                  let entry :=
                    if v.read.is openBrace then
                      let (block, p) :=
                        if vdfMaxDepth < depth + 1 then ([], v.read.parser.fail)
                        else loadEntries fuel (depth + 1) v.read.parser []
                      ⟨.array (some key) block, v.accepted, v.children, p⟩
                    else loadString alloc v key
                  let (children, p) := appendChild alloc entry.accepted entry.children entry.child entry.parser
                  loadEntries fuel depth p children

def loadBlock (p : VdfParser) (depth : Nat) : List VdfObject × VdfParser :=
  if vdfMaxDepth < depth then ([], p.fail) else loadEntries alloc (p.rest.length + 1) depth p []

/-- The object that the next entry is read into: the result, one that is dropped later, or none yet. -/
inductive VdfCurrent where
  | root
  | scratch
  | null
  deriving DecidableEq

structure VdfLoading where
  root : VdfObject
  current : VdfCurrent
  parser : VdfParser

/-- `#include` -/
def includeKey : Text := [35, 105, 110, 99, 108, 117, 100, 101]

def nextObject (current : VdfCurrent) (p : VdfParser) : Bool × VdfParser :=
  match current with
  | .null => newObject alloc p
  | _ => allocate alloc p

def loadEntry (l : VdfLoading) (key : Text) (p : VdfParser) : VdfLoading :=
  let (r, accepted) := afterConditional (readToken p) true
  let (object, p) :=
    if r.is openBrace then
      let (block, p) := loadBlock alloc r.parser 1
      (VdfObject.array (some key) block, p)
    else (.none (some key), r.parser.fail)
  let root := if l.current = .root then (if accepted then object else .none (some key)) else l.root
  let current := if accepted then .null else if l.current = .root then .root else .scratch
  ⟨root, current, p⟩

/-- `fuel` bounds the number of entries. -/
def parseEntries : Nat → VdfLoading → VdfLoading
  | 0, l => { l with parser := l.parser.fail }
  | fuel + 1, l =>
      let r := readToken l.parser
      let key := r.token.getD []
      if r.parser.overflow || r.token.isNone || (key = [] && !r.quoted) then { l with parser := r.parser }
      else if asciiEqual key includeKey then
        let file := readToken r.parser
        let p := if file.token.getD [] = [] then file.parser.fail else file.parser
        if p.overflow || p.error then { l with parser := p } else parseEntries fuel { l with parser := p }
      else
        match nextObject alloc l.current r.parser with
        | (false, p) => { l with parser := p }
        | (true, p) =>
            let l := loadEntry alloc l key p
            if l.parser.overflow || l.parser.error then l else parseEntries fuel l

def skipMark (buffer : Text) : Text :=
  if buffer.take 3 = [0xEF, 0xBB, 0xBF] then buffer.drop 3 else buffer

/-- The first two allocations are the token and the result. -/
def vdfParseBuffer (buffer : Text) : Option VdfObject :=
  if intMax < buffer.length then none
  else if alloc 0 = false ∨ alloc 1 = false then none
  else
    let l := parseEntries alloc (buffer.length + 1)
      ⟨.none none, .root, ⟨skipMark buffer, false, false, 2⟩⟩
    if l.parser.error then none else some l.root

end Yafsml.Steam
