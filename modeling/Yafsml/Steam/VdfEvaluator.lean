import Yafsml.Foundation.Returns
import Yafsml.Steam.VdfGrammar

/-!
# The evaluator of a conditional

The evaluator with its position in the text, and the identifier that it collects in a buffer of fixed size.
Nothing comes of a read behind the end of the text, of a write behind the end of the buffer, or of more steps
than `fuel` allows.
-/

namespace Yafsml.Steam.VdfEvaluator

structure VdfPosition where
  position : Nat
  current : UInt8
  depth : Nat
  deriving DecidableEq

section Evaluator

variable (text : Text)

def expressionAt (position : Nat) : Option UInt8 :=
  if position < text.length then text[position]? else some 0

def skipBlanks : (fuel position : Nat) → Option Nat
  | 0, _ => none
  | fuel + 1, position => do
      let c ← expressionAt text position
      if c = blank then skipBlanks fuel (position + 1) else some position

def nextToken (fuel : Nat) (e : VdfPosition) : Option VdfPosition := do
  let position ← skipBlanks text fuel e.position
  let c ← expressionAt text position
  some { e with position := position + 1, current := c }

def storeChar (identifier : Text) (c : UInt8) : Option Text :=
  if identifier.length < vdfIdentifierSize then some (identifier ++ [c]) else none

def readIdentifier (continues : UInt8 → Bool) : (fuel position : Nat) → Text → Option (Text × Nat)
  | 0, _, _ => none
  | fuel + 1, position, identifier => do
      let c ← expressionAt text position
      if continues c ∧ identifier.length < vdfIdentifierSize then do
        let identifier ← storeChar identifier c
        readIdentifier continues fuel (position + 1) identifier
      else some (identifier, position)

def makeIdentifier (fuel : Nat) (e : VdfPosition) (continues : UInt8 → Bool) (evaluate : Text → Bool) :
    Option (Bool × VdfPosition) := do
  let identifier ← storeChar [] e.current
  let (identifier, position) ← readIdentifier text continues fuel e.position identifier
  if vdfIdentifierSize - 1 ≤ identifier.length then do
    let e ← nextToken text fuel { e with position := position }
    some (false, e)
  else do
    let _ ← storeChar identifier 0
    let e ← nextToken text fuel { e with position := position }
    some (evaluate identifier, e)

mutual

def makeFactor : (fuel : Nat) → VdfPosition → Option (Bool × VdfPosition)
  | 0, _ => none
  | fuel + 1, e =>
      if e.current = 40 then do
        let e ← nextToken text fuel e
        let (value, e) ←
          if e.depth < vdfMaxDepth then do
            let (value, e) ← makeExpression fuel { e with depth := e.depth + 1 }
            some (value, { e with depth := e.depth - 1 })
          else some (false, e)
        let e ← nextToken text fuel e
        some (value, e)
      else if e.current = dollar then makeIdentifier text fuel e isNameChar evaluateSymbol
      else if isDigit e.current then
        makeIdentifier text fuel e isDigit fun identifier =>
          (identifier.takeWhile (· = 48)).length ≠ identifier.length
      else if e.current = 33 then some (false, e)
      else do
        let e ← nextToken text fuel e
        some (false, e)

def termLoop : (fuel : Nat) → Bool → VdfPosition → Option (Bool × VdfPosition)
  | 0, _, _ => none
  | fuel + 1, value, e =>
      if e.current = 33 then do
        let e ← nextToken text fuel e
        let (value, e) ← makeFactor fuel e
        termLoop fuel (!value) e
      else some (value, e)

def makeTerm : (fuel : Nat) → VdfPosition → Option (Bool × VdfPosition)
  | 0, _ => none
  | fuel + 1, e => do
      let (value, e) ← makeFactor fuel e
      termLoop fuel value e

def expressionLoop : (fuel : Nat) → Bool → VdfPosition → Option (Bool × VdfPosition)
  | 0, _, _ => none
  | fuel + 1, value, e =>
      if e.current = 124 ∨ e.current = 38 then do
        let op := e.current
        let next ← expressionAt text e.position
        let e := { e with position := e.position + 1 }
        if next &&& op ≠ op then some (value, e)
        else do
          let e ← nextToken text fuel e
          let (right, e) ← makeTerm fuel e
          expressionLoop fuel (if op = 38 then value && right else value || right) e
      else some (value, e)

def makeExpression : (fuel : Nat) → VdfPosition → Option (Bool × VdfPosition)
  | 0, _ => none
  | fuel + 1, e => do
      let (value, e) ← makeTerm fuel e
      expressionLoop fuel value e

end

end Evaluator

def evaluateConditional (fuel : Nat) : Text → Option Bool
  | [] => some false
  | _ :: text => do
      let e ← nextToken text fuel ⟨0, 0, 0⟩
      let (value, _) ← makeExpression text fuel e
      some value

end Yafsml.Steam.VdfEvaluator
