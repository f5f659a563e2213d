import Mathlib.Data.List.TakeWhile

/-! # Tokens of a VDF text -/

namespace Yafsml.Steam

abbrev Text := List UInt8

def newline : UInt8 := 10
def blank : UInt8 := 32
def quote : UInt8 := 34
def slash : UInt8 := 47
def equals : UInt8 := 61
def openBracket : UInt8 := 91
def backslash : UInt8 := 92
def closeBracket : UInt8 := 93
def openBrace : UInt8 := 123
def closeBrace : UInt8 := 125

def vdfTokenSize : Nat := 0x40000

/-- `rest` is what is left of the data; `attempts` counts the allocations that were asked for. -/
structure VdfParser where
  rest : Text
  overflow : Bool
  error : Bool
  attempts : Nat
  deriving DecidableEq

def isSpace (c : UInt8) : Bool := c = blank || (9 ≤ c && c ≤ 13)

def asciiUpper (c : UInt8) : UInt8 := if 97 ≤ c ∧ c ≤ 122 then c - 0x20 else c

def asciiEqual (left right : Text) : Bool := left.map asciiUpper = right.map asciiUpper

def eatWhiteSpace (p : VdfParser) : VdfParser :=
  if p.overflow then p
  else
    match p.rest.dropWhile isSpace with
    | [] => { p with rest := [], overflow := true }
    | c :: rest => { p with rest := c :: rest }

def eatLine (p : VdfParser) : Text → VdfParser
  | [] => { p with rest := [], overflow := true }
  | c :: rest => if c = newline then { p with rest } else eatLine p rest

def eatCppComment (p : VdfParser) : Bool × VdfParser :=
  match p.overflow, p.rest with
  | false, c :: d :: rest => if c = slash ∧ d = slash then (true, eatLine p rest) else (false, p)
  | _, _ => (false, p)

/-- `fuel` bounds the number of comments. -/
def eatComments : Nat → VdfParser → VdfParser
  | 0, p => p
  | fuel + 1, p =>
      match eatCppComment p with
      | (false, p) => p
      | (true, p) =>
          let p := eatWhiteSpace p
          if p.overflow then p else eatComments fuel p

def escapedChar (c : UInt8) : UInt8 :=
  if c = 110 then 10
  else if c = 116 then 9
  else if c = 118 then 11
  else if c = 98 then 8
  else if c = 114 then 13
  else if c = 102 then 12
  else if c = 97 then 7
  else if c = backslash then backslash
  else if c = 63 then 63
  else if c = 39 then 39
  else if c = quote then quote
  else 0

/-- The characters, what is behind the closing quote, and whether it is missing. -/
def quotedChars : Text → Text × Text × Bool
  | [] => ([0], [], true)
  | [c] => if c = quote then ([], [], false) else (if c = backslash then [0, 0] else [c, 0], [], true)
  | c :: e :: rest =>
      if c = quote then ([], e :: rest, false)
      else if c = backslash then
        -- an unknown escape becomes a NUL and the next character is read normally
        if escapedChar e = 0 then
          let (chars, behind, missing) := quotedChars (e :: rest)
          (0 :: chars, behind, missing)
        else
          let (chars, behind, missing) := quotedChars rest
          (escapedChar e :: chars, behind, missing)
      else
        let (chars, behind, missing) := quotedChars (e :: rest)
        (c :: chars, behind, missing)

theorem quotedChars_quote (rest : Text) : quotedChars (quote :: rest) = ([], rest, false) := by
  cases rest with
  | nil => rfl
  | cons e rest => rw [quotedChars, if_pos rfl]

def cString (chars : Text) : Text := chars.takeWhile (· ≠ 0)

structure VdfRead where
  token : Option Text
  quoted : Bool
  conditional : Bool
  parser : VdfParser
  deriving DecidableEq

def readQuoted (p : VdfParser) (rest : Text) : VdfRead :=
  let (chars, behind, missing) := quotedChars rest
  ⟨some (cString (chars.take (vdfTokenSize - 1))), true, false,
    { p with rest := behind, overflow := missing }⟩

def endsUnquoted (c : UInt8) : Bool :=
  c = 0 || c = quote || c = equals || c = openBrace || c = closeBrace

def unquotedChars (bracket : Bool) : Text → Text × Text × Bool
  | [] => ([], [], false)
  | c :: rest =>
      if endsUnquoted c || isSpace c then ([], c :: rest, false)
      else
        let (chars, behind, conditional) := unquotedChars (bracket || c = openBracket) rest
        (c :: chars, behind, conditional || (c = closeBracket && bracket))

def readUnquoted (p : VdfParser) (rest : Text) : VdfRead :=
  let (chars, behind, conditional) := unquotedChars false rest
  ⟨some (chars.take (vdfTokenSize - 1)), false, conditional,
    { p with rest := behind, error := p.error || vdfTokenSize - 1 < chars.length }⟩

/-- Reads the token that `rest` starts with. -/
def tokenHere (p : VdfParser) : VdfRead :=
  match p.rest with
  | [] => ⟨none, false, false, p⟩
  | c :: rest =>
      if c = quote then readQuoted p rest
      else if c = openBrace ∨ c = closeBrace ∨ c = equals then ⟨some [c], false, false, { p with rest }⟩
      else readUnquoted p (c :: rest)

def readToken (p : VdfParser) : VdfRead :=
  if p.overflow then ⟨none, false, false, p⟩
  else
    let p := eatWhiteSpace p
    if p.overflow then ⟨none, false, false, p⟩
    else
      let p := eatComments p.rest.length p
      if p.overflow then ⟨none, false, false, p⟩ else tokenHere p

def VdfRead.is (r : VdfRead) (c : UInt8) : Bool := !r.quoted && r.token.bind List.head? = some c

end Yafsml.Steam
