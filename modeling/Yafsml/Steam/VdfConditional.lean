import Yafsml.Steam.VdfToken

/-! # Conditionals of a VDF text -/

namespace Yafsml.Steam

def vdfMaxDepth : Nat := 4096

def vdfIdentifierSize : Nat := 128

/-- `rest` is the text from the position on; behind its end there are NULs. -/
structure VdfExpression where
  rest : Text
  current : UInt8
  deriving DecidableEq

def expressionAt (e : VdfExpression) : UInt8 := e.rest.headD 0

def nextToken (e : VdfExpression) : VdfExpression :=
  let rest := e.rest.dropWhile (· = blank)
  ⟨rest.tail, rest.headD 0⟩

def isDigit (c : UInt8) : Bool := 48 ≤ c && c ≤ 57

def isAsciiAlnum (c : UInt8) : Bool := isDigit c || (65 ≤ c && c ≤ 90) || (97 ≤ c && c ≤ 122)

def dollar : UInt8 := 36

/-- `WINDOWS`, `WIN32`, `WIN64`, `VISTA` and `WIN7`. -/
def trueSymbols : List Text :=
  [[87, 73, 78, 68, 79, 87, 83], [87, 73, 78, 51, 50], [87, 73, 78, 54, 52], [86, 73, 83, 84, 65],
    [87, 73, 78, 55]]

def evaluateSymbol (identifier : Text) : Bool :=
  let name := if identifier.head? = some dollar then identifier.tail else identifier
  if asciiEqual identifier [dollar, 48] then false
  else if asciiEqual identifier [dollar, 49] then true
  else trueSymbols.any fun symbol => asciiEqual name symbol

def makeIdentifier (e : VdfExpression) (continues : UInt8 → Bool) (evaluate : Text → Bool) :
    Bool × VdfExpression :=
  let chars := (e.rest.take (vdfIdentifierSize - 1)).takeWhile continues
  let identifier := e.current :: chars
  let e := nextToken { e with rest := e.rest.drop chars.length }
  if vdfIdentifierSize - 1 ≤ identifier.length then (false, e) else (evaluate identifier, e)

/-- `deeper` makes an expression in parentheses, unless they are nested too deeply. -/
def makeFactor (deeper : Option (VdfExpression → Bool × VdfExpression)) (e : VdfExpression) :
    Bool × VdfExpression :=
  if e.current = 40 then
    let e := nextToken e
    let (value, e) := match deeper with
      | none => (false, e)
      | some makeExpression => makeExpression e
    -- the closing parenthesis is consumed without being checked
    (value, nextToken e)
  else if e.current = dollar then makeIdentifier e (fun c => isAsciiAlnum c || c = 95) evaluateSymbol
  else if isDigit e.current then makeIdentifier e isDigit fun digits => digits.any (· ≠ 48)
  else if e.current = 33 then (false, e)
  else (false, nextToken e)

/-- `fuel` bounds the number of factors. -/
def negations (deeper : Option (VdfExpression → Bool × VdfExpression)) :
    Nat → Bool → VdfExpression → Bool × VdfExpression
  | 0, value, e => (value, e)
  | fuel + 1, value, e =>
      if e.current = 33 then
        let (value, e) := makeFactor deeper (nextToken e)
        negations deeper fuel (!value) e
      else (value, e)

def makeTerm (deeper : Option (VdfExpression → Bool × VdfExpression)) (e : VdfExpression) :
    Bool × VdfExpression :=
  let (value, e) := makeFactor deeper e
  negations deeper (e.rest.length + 1) value e

/-- `fuel` bounds the number of terms. -/
def operations (deeper : Option (VdfExpression → Bool × VdfExpression)) :
    Nat → Bool → VdfExpression → Bool × VdfExpression
  | 0, value, e => (value, e)
  | fuel + 1, value, e =>
      if e.current = 124 ∨ e.current = 38 then
        let op := e.current
        let next := expressionAt e
        let e := { e with rest := e.rest.tail }
        if next &&& op ≠ op then (value, e)
        else
          let (right, e) := makeTerm deeper (nextToken e)
          operations deeper fuel (if op = 38 then value && right else value || right) e
      else (value, e)

def expressionWith (deeper : Option (VdfExpression → Bool × VdfExpression)) (e : VdfExpression) :
    Bool × VdfExpression :=
  let (value, e) := makeTerm deeper e
  operations deeper (e.rest.length + 1) value e

def makeExpression : Nat → VdfExpression → Bool × VdfExpression
  | 0 => expressionWith none
  | depth + 1 => expressionWith (some (makeExpression depth))

def evaluateConditional : Text → Bool
  | [] => false
  | _ :: text => (makeExpression vdfMaxDepth (nextToken ⟨text, 0⟩)).1

end Yafsml.Steam
