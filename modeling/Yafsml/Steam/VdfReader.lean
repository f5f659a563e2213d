import Yafsml.Steam.VdfEvaluator

/-!
# The reader of a VDF text

The parser with its position in the data and its token, which is a buffer of fixed size. Nothing comes of a
read outside the data, of an access behind the end of the token, or of more steps than `fuel` allows.
-/

namespace Yafsml.Steam.VdfReader

structure TokenBuffer where
  chars : Text
  size : chars.length = vdfTokenSize

/-- `attempts` and `deepest` are the number of allocations that were asked for and the deepest block that was
entered. -/
structure Reader where
  get : Nat
  overflow : Bool
  error : Bool
  token : TokenBuffer
  attempts : Nat
  deepest : Nat

def Reader.fail (p : Reader) : Reader := { p with error := true }

def store (p : Reader) (index : Nat) (c : UInt8) : Option Reader :=
  if index < vdfTokenSize then some { p with token := ⟨p.token.chars.set index c, by simp [p.token.size]⟩ } else none

def tokenString (p : Reader) : Option Text := if 0 ∈ p.token.chars then some (cString p.token.chars) else none

section Data

variable (data : Text)

def eatWhiteSpace : (fuel : Nat) → Reader → Option Reader
  | 0, _ => none
  | fuel + 1, p =>
      if p.overflow then some p
      else if data.length ≤ p.get then some { p with overflow := true }
      else do
        let c ← data[p.get]?
        if !isSpace c then some p else eatWhiteSpace fuel { p with get := p.get + 1 }

def getChar (p : Reader) : Option (UInt8 × Reader) :=
  if p.overflow then some (0, p)
  else if data.length ≤ p.get then some (0, { p with overflow := true })
  else do
    let c ← data[p.get]?
    some (c, { p with get := p.get + 1 })

def eatLine : (fuel : Nat) → Reader → Option Reader
  | 0, _ => none
  | fuel + 1, p => do
      let (c, p) ← getChar data p
      if c ≠ newline ∧ !p.overflow then eatLine fuel p else some p

def eatCppComment (fuel : Nat) (p : Reader) : Option (Bool × Reader) :=
  if p.overflow ∨ data.length < p.get + 2 then some (false, p)
  else do
    let c ← data[p.get]?
    if c ≠ slash then some (false, p)
    else do
      let d ← data[p.get + 1]?
      if d ≠ slash then some (false, p)
      else do
        let p ← eatLine data fuel { p with get := p.get + 2 }
        some (true, p)

def getDelimitedChar (p : Reader) : Option (UInt8 × Reader) := do
  let (c, p) ← getChar data p
  if c ≠ backslash then some (c, p)
  else if data.length ≤ p.get then some (0, p)
  else do
    let e ← data[p.get]?
    if escapedChar e ≠ 0 then some (escapedChar e, { p with get := p.get + 1 }) else some (0, p)

def atQuote (p : Reader) : Option Bool :=
  if p.get < data.length then do
    let c ← data[p.get]?
    some (c = quote)
  else some false

def quotedLoop : (fuel length : Nat) → Reader → Option (Nat × Reader)
  | 0, _, _ => none
  | fuel + 1, length, p =>
      if p.overflow then some (length, p)
      else do
        let ended ← atQuote data p
        if ended then some (length, { p with get := p.get + 1 })
        else do
          let (c, p) ← getDelimitedChar data p
          if length < vdfTokenSize then do
            let p ← store p length c
            quotedLoop fuel (length + 1) p
          else quotedLoop fuel length p

def readQuoted (fuel : Nat) (p : Reader) : Option Reader := do
  let (length, p) ← quotedLoop data fuel 0 { p with get := p.get + 1 }
  store p (if vdfTokenSize ≤ length then vdfTokenSize - 1 else length) 0

structure Unquoted where
  bracket : Bool
  conditional : Bool
  reported : Bool
  length : Nat

def Unquoted.flag (u : Unquoted) (c : UInt8) : Unquoted :=
  if c = openBracket then { u with bracket := true }
  else if c = closeBracket ∧ u.bracket then { u with conditional := true }
  else u

def unquotedLoop : (fuel : Nat) → Unquoted → Reader → Option (Unquoted × Reader)
  | 0, _, _ => none
  | fuel + 1, u, p =>
      if data.length ≤ p.get then some (u, p)
      else do
        let c ← data[p.get]?
        if endsUnquoted c then some (u, p)
        else
          let u := u.flag c
          if isSpace c then some (u, p)
          else if u.length < vdfTokenSize - 1 then do
            let p ← store p u.length c
            unquotedLoop fuel { u with length := u.length + 1 } { p with get := p.get + 1 }
          else if !u.reported then
            unquotedLoop fuel { u with reported := true } { p with get := p.get + 1, error := true }
          else unquotedLoop fuel u { p with get := p.get + 1 }

def eatComments : (fuel : Nat) → Reader → Option Reader
  | 0, _ => none
  | fuel + 1, p => do
      let (comment, p) ← eatCppComment data fuel p
      if comment then do
        let p ← eatWhiteSpace data fuel p
        if p.overflow then some p else eatComments fuel p
      else some p

structure Token where
  token : Option Text
  quoted : Bool
  conditional : Bool
  parser : Reader

def readHere (fuel : Nat) (p : Reader) : Option Token :=
  if data.length ≤ p.get then some ⟨none, false, false, p⟩
  else do
    let c ← data[p.get]?
    if c = quote then do
      let p ← readQuoted data fuel p
      let token ← tokenString p
      some ⟨token, true, false, p⟩
    else if c = openBrace ∨ c = closeBrace ∨ c = equals then do
      let p ← store { p with get := p.get + 1 } 0 c
      let p ← store p 1 0
      let token ← tokenString p
      some ⟨token, false, false, p⟩
    else do
      let (u, p) ← unquotedLoop data fuel ⟨false, false, false, 0⟩ p
      let p ← store p u.length 0
      let token ← tokenString p
      some ⟨token, false, u.conditional, p⟩

def readToken (fuel : Nat) (p : Reader) : Option Token :=
  if p.overflow then some ⟨none, false, false, p⟩
  else do
    let p ← eatWhiteSpace data fuel p
    if p.overflow then some ⟨none, false, false, p⟩
    else do
      let p ← eatComments data fuel p
      if p.overflow then some ⟨none, false, false, p⟩ else readHere data fuel p

def Token.is (r : Token) (c : UInt8) : Bool := !r.quoted && r.token.bind List.head? = some c

variable (alloc : Nat → Bool)

def allocate (p : Reader) : Bool × Reader :=
  let ok := alloc p.attempts
  (ok, { p with attempts := p.attempts + 1, error := p.error || !ok })

def newObject (p : Reader) : Bool × Reader :=
  match allocate alloc p with
  | (false, p) => (false, p)
  | (true, p) => allocate alloc p

def appendChild (accepted : Bool) (children : List VdfObject) (child : VdfObject) (p : Reader) :
    List VdfObject × Reader :=
  if p.error || !accepted then (children, p)
  else
    match allocate alloc p with
    | (false, p) => (children, p)
    | (true, p) => (children ++ [child], p)

def afterConditional (fuel : Nat) (r : Token) (accepted : Bool) : Option (Token × Bool) :=
  match r.conditional, r.token with
  | true, some token => do
      let accepted ← VdfEvaluator.evaluateConditional fuel token
      let r ← readToken data fuel r.parser
      some (r, accepted)
  | _, _ => some (r, accepted)

structure Value where
  read : Token
  accepted : Bool
  children : List VdfObject

def readValue (fuel : Nat) (p : Reader) (children : List VdfObject) (key : Text) : Option Value := do
  let r ← readToken data fuel p
  let (r, accepted) ← afterConditional data fuel r true
  if r.is equals then do
    let r ← readToken data fuel r.parser
    if r.conditional then do
      let (r, accepted) ← afterConditional data fuel r accepted
      some ⟨r, accepted, if accepted then removeFirstNamed children key else children⟩
    else some ⟨r, accepted, children⟩
  else some ⟨r, accepted, children⟩

def Token.isNoValue (r : Token) : Bool :=
  r.token.isNone || r.is closeBrace || (!r.is openBrace && r.conditional)

structure Entry where
  child : VdfObject
  accepted : Bool
  children : List VdfObject
  parser : Reader

def loadString (fuel : Nat) (v : Value) (key : Text) : Option Entry :=
  match allocate alloc v.read.parser with
  | (false, p) => some ⟨.none (some key), v.accepted, v.children, p⟩
  | (true, p) => do
      let child := VdfObject.string (some key) (storedValue (v.read.token.getD []))
      let peek ← readToken data fuel p
      if peek.conditional then do
        let accepted ← VdfEvaluator.evaluateConditional fuel (peek.token.getD [])
        some ⟨child, accepted, if accepted then removeFirstNamed v.children key else v.children, peek.parser⟩
      else some ⟨child, v.accepted, v.children, { peek.parser with get := p.get, overflow := false }⟩

mutual

def loadBlock : (fuel depth : Nat) → Reader → Option (List VdfObject × Reader)
  | 0, _, _ => none
  | fuel + 1, depth, p =>
      let p := { p with deepest := max p.deepest depth }
      if vdfMaxDepth < depth then some ([], p.fail) else loadEntries fuel depth p []

def loadEntries : (fuel depth : Nat) → Reader → List VdfObject → Option (List VdfObject × Reader)
  | 0, _, _, _ => none
  | fuel + 1, depth, p, children => do
      let r ← readToken data fuel p
      match r.token with
      | none => some (children, r.parser.fail)
      | some key =>
          if r.parser.error = true ∨ key = [] then some (children, r.parser.fail)
          else if r.is closeBrace then some (children, r.parser)
          else
            match newObject alloc r.parser with
            | (false, p) => some (children, p)
            | (true, p) => do
                let v ← readValue data fuel p children key
                if v.read.isNoValue then some (v.children, v.read.parser.fail)
                else do
                  let entry ←
                    if v.read.is openBrace then do
                      let (block, p) ← loadBlock fuel (depth + 1) v.read.parser
                      some (⟨.array (some key) block, v.accepted, v.children, p⟩ : Entry)
                    else loadString data alloc fuel v key
                  let (children, p) := appendChild alloc entry.accepted entry.children entry.child entry.parser
                  loadEntries fuel depth p children

end

structure Loading where
  root : VdfObject
  current : VdfCurrent
  parser : Reader

def nextObject (current : VdfCurrent) (p : Reader) : Bool × Reader :=
  match current with
  | .null => newObject alloc p
  | _ => allocate alloc p

def loadEntry (fuel : Nat) (l : Loading) (key : Text) (p : Reader) : Option Loading := do
  let r ← readToken data fuel p
  let (r, accepted) ← afterConditional data fuel r true
  let (object, p) ←
    if r.is openBrace then do
      let (block, p) ← loadBlock data alloc fuel 1 r.parser
      some (VdfObject.array (some key) block, p)
    else some (VdfObject.none (some key), r.parser.fail)
  let root := if l.current = .root then (if accepted then object else .none (some key)) else l.root
  let current := if accepted then .null else if l.current = .root then .root else .scratch
  some ⟨root, current, p⟩

def parseEntries : (fuel : Nat) → Loading → Option Loading
  | 0, _ => none
  | fuel + 1, l => do
      let r ← readToken data fuel l.parser
      let key := r.token.getD []
      if r.parser.overflow || r.token.isNone || (key = [] && !r.quoted) then some { l with parser := r.parser }
      else if asciiEqual key includeKey then do
        let file ← readToken data fuel r.parser
        let p := if file.token.getD [] = [] then file.parser.fail else file.parser
        if p.overflow || p.error then some { l with parser := p } else parseEntries fuel { l with parser := p }
      else
        match nextObject alloc l.current r.parser with
        | (false, p) => some { l with parser := p }
        | (true, p) => do
            let l ← loadEntry data alloc fuel l key p
            if l.parser.overflow || l.parser.error then some l else parseEntries fuel l

/-- The result and what is known of the parser at the end. -/
structure Run where
  result : Option VdfObject
  error : Bool
  attempts : Nat
  deepest : Nat

/-- The first two allocations are the token, with what is in its memory, and the result. -/
def vdfParseBuffer (fuel : Nat) (garbage : TokenBuffer) : Option Run :=
  if intMax < data.length then some ⟨none, false, 0, 0⟩
  else if alloc 0 = false then some ⟨none, false, 1, 0⟩
  else if alloc 1 = false then some ⟨none, true, 2, 0⟩
  else do
    let skipped := if data.take 3 = [0xEF, 0xBB, 0xBF] then 3 else 0
    let l ← parseEntries data alloc fuel ⟨.none none, .root, ⟨skipped, false, false, garbage, 2, 0⟩⟩
    some ⟨if l.parser.error then none else some l.root, l.parser.error, l.parser.attempts, l.parser.deepest⟩

end Data

end Yafsml.Steam.VdfReader
