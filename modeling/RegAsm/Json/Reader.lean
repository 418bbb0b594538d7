import RegAsm.Json

/-! Reading JSON text. Every reader returns a value and the text after it. -/

namespace RegAsm.Json

def isSpace (c : Char) : Bool :=
  c == ' ' || c == '\t' || c == '\n' || c == '\r'

def skip (cs : List Char) : List Char :=
  cs.dropWhile isSpace

inductive TextUnit where
  | char (c : Char)
  | code (n : Nat)
deriving DecidableEq, Repr

def unescape? (c : Char) : Option Char :=
  if c = '"' || c = '\\' || c = '/' then some c
  else if c = 'b' then some '\x08'
  else if c = 'f' then some '\x0c'
  else if c = 'n' then some '\n'
  else if c = 'r' then some '\r'
  else if c = 't' then some '\t'
  else none

def code? (a b c d : Char) : Option Nat := do
  let a ← Text.hexValue? a
  let b ← Text.hexValue? b
  let c ← Text.hexValue? c
  let d ← Text.hexValue? d
  return ((a * 16 + b) * 16 + c) * 16 + d

def readUnits : List Char → Option (List TextUnit × List Char)
  | [] => none
  | '"' :: cs => some ([], cs)
  | '\\' :: 'u' :: a :: b :: c :: d :: cs => do
    let n ← code? a b c d
    let (us, rest) ← readUnits cs
    return (.code n :: us, rest)
  | '\\' :: c :: cs => do
    let e ← unescape? c
    let (us, rest) ← readUnits cs
    return (.char e :: us, rest)
  | c :: cs =>
    if c = '\\' || c.toNat < 0x20 then none
    else do
      let (us, rest) ← readUnits cs
      return (.char c :: us, rest)

def isHighSurrogate (n : Nat) : Bool :=
  0xD800 ≤ n && n ≤ 0xDBFF

def isLowSurrogate (n : Nat) : Bool :=
  0xDC00 ≤ n && n ≤ 0xDFFF

def joinUnits : List TextUnit → Option (List Char)
  | [] => some []
  | .char c :: us => do
    let cs ← joinUnits us
    return c :: cs
  | .code n :: .code m :: us =>
    if isHighSurrogate n then
      if isLowSurrogate m then do
        let cs ← joinUnits us
        return Char.ofNat (0x10000 + (n - 0xD800) * 0x400 + (m - 0xDC00)) :: cs
      else none
    else do
      let c ← Text.scalar? n
      let cs ← joinUnits (.code m :: us)
      return c :: cs
  | .code n :: us => do
    let c ← Text.scalar? n
    let cs ← joinUnits us
    return c :: cs

def readText (cs : List Char) : Option (Option String × List Char) := do
  let (us, rest) ← readUnits cs
  return ((joinUnits us).map String.ofList, rest)

def readDigits (cs : List Char) : Option (List Char × List Char) :=
  let digits := cs.takeWhile Char.isDigit
  if digits.isEmpty then none else some (digits, cs.dropWhile Char.isDigit)

def readFraction : List Char → Option (Bool × List Char)
  | '.' :: cs => do
    let (_, rest) ← readDigits cs
    return (true, rest)
  | cs => some (false, cs)

def skipSign : List Char → List Char
  | '+' :: cs => cs
  | '-' :: cs => cs
  | cs => cs

def readExponent : List Char → Option (Bool × List Char)
  | c :: cs =>
    if c = 'e' || c = 'E' then do
      let (_, rest) ← readDigits (skipSign cs)
      return (true, rest)
    else some (false, c :: cs)
  | [] => some (false, [])

def readMagnitude (negative : Bool) (cs : List Char) : Option (Json × List Char) := do
  let (digits, rest) ← readDigits cs
  if digits.head? = some '0' && digits.length ≠ 1 then none
  let (fractional, rest) ← readFraction rest
  let (scaled, rest) ← readExponent rest
  let n := Nat.ofDigitChars 10 digits 0
  if fractional || scaled || (negative && n = 0) then return (.fraction, rest)
  return (.int (if negative then -n else n), rest)

def readNumber : List Char → Option (Json × List Char)
  | '-' :: cs => readMagnitude true cs
  | cs => readMagnitude false cs

-- each call takes one unit of fuel
mutual

def readValue : Nat → List Char → Option (Json × List Char)
  | 0, _ => none
  | n + 1, cs =>
    match skip cs with
    | 'n' :: 'u' :: 'l' :: 'l' :: cs => some (.null, cs)
    | 't' :: 'r' :: 'u' :: 'e' :: cs => some (.bool true, cs)
    | 'f' :: 'a' :: 'l' :: 's' :: 'e' :: cs => some (.bool false, cs)
    | '"' :: cs => do
      let (content, rest) ← readText cs
      return (.text content, rest)
    | '[' :: cs =>
      match skip cs with
      | ']' :: rest => some (.array [], rest)
      | cs => do
        let (items, rest) ← readItems n cs
        return (.array items, rest)
    | '\x7b' :: cs =>
      match skip cs with
      | '\x7d' :: rest => some (.object [], rest)
      | cs => do
        let (members, rest) ← readMembers n cs
        return (.object members, rest)
    | cs => readNumber cs

def readItems : Nat → List Char → Option (List Json × List Char)
  | 0, _ => none
  | n + 1, cs => do
    let (item, rest) ← readValue n cs
    match skip rest with
    | ',' :: rest => do
      let (items, rest) ← readItems n rest
      return (item :: items, rest)
    | ']' :: rest => some ([item], rest)
    | _ => none

def readMembers : Nat → List Char → Option (List (Option String × Json) × List Char)
  | 0, _ => none
  | n + 1, cs =>
    match skip cs with
    | '"' :: cs => do
      let (name, rest) ← readText cs
      match skip rest with
      | ':' :: rest => do
        let (value, rest) ← readValue n rest
        match skip rest with
        | ',' :: rest => do
          let (members, rest) ← readMembers n rest
          return ((name, value) :: members, rest)
        | '\x7d' :: rest => some ([(name, value)], rest)
        | _ => none
      | _ => none
    | _ => none

end

/-- The value that a whole text stands for. Two calls for each character are enough. -/
def read? (cs : List Char) : Option Json := do
  let (j, rest) ← readValue (2 * cs.length + 2) cs
  if (skip rest).isEmpty then some j else none

end RegAsm.Json
