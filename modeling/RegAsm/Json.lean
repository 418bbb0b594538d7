import RegAsm.Decimal
import RegAsm.Text.Hex

namespace RegAsm

/-- A JSON value, as far as programs are exchanged by it. A number with a fraction or an exponent,
and the integer minus zero, are only known to be there. A text is none if it has an unpaired
surrogate. -/
inductive Json where
  | null
  | bool (b : Bool)
  | int (n : Int)
  | fraction
  | text (content : Option String)
  | array (items : List Json)
  | object (members : List (Option String × Json))

namespace Json

def escape (c : Char) : List Char :=
  if c = '"' then ['\\', '"']
  else if c = '\\' then ['\\', '\\']
  else if c = '\x08' then ['\\', 'b']
  else if c = '\x0c' then ['\\', 'f']
  else if c = '\n' then ['\\', 'n']
  else if c = '\r' then ['\\', 'r']
  else if c = '\t' then ['\\', 't']
  else if c.toNat < 0x20 then
    ['\\', 'u', '0', '0', Text.hexDigit (c.toNat / 16), Text.hexDigit (c.toNat % 16)]
  else [c]

/-- What is not kept of a value is written as one example of it. -/
def writeText : Option String → List Char
  | some s => '"' :: (s.toList.flatMap escape ++ ['"'])
  | none => "\"\\ud800\"".toList

mutual

def write : Json → List Char
  | null => "null".toList
  | bool true => "true".toList
  | bool false => "false".toList
  | int n => (Decimal.ofInt n).toList
  | fraction => "0.5".toList
  | text content => writeText content
  | array [] => "[]".toList
  | array (item :: items) => '[' :: (write item ++ writeItems items)
  | object [] => "\x7b\x7d".toList
  | object ((name, value) :: members) =>
    '\x7b' :: (writeText name ++ ':' :: (write value ++ writeMembers members))

def writeItems : List Json → List Char
  | [] => [']']
  | item :: items => ',' :: (write item ++ writeItems items)

def writeMembers : List (Option String × Json) → List Char
  | [] => ['\x7d']
  | (name, value) :: members =>
    ',' :: (writeText name ++ ':' :: (write value ++ writeMembers members))

end

def print (j : Json) : String :=
  String.ofList j.write

end Json

end RegAsm
