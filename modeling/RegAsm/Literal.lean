import RegAsm.Text.Blank
import RegAsm.Text.Hex

/-! String literals of the host language, from their spelling to their value. -/

namespace RegAsm.Literal

inductive Error where
  | byteEscape (digits : List Char)
  | braceExpected
  | malformedScalar
  | noScalar (digits : List Char)
  | unknownEscape (c : Char)
  | loneBackslash
  | malformedText
  | malformedRawText
  | byteText
  | cText
  | noText (spelling : List Char)
deriving DecidableEq, Repr

def Error.message : Error → String
  | byteEscape digits => "invalid escape `\\x" ++ String.ofList digits ++ "`"
  | braceExpected => "expected `\x7b` after `\\u`"
  | malformedScalar => "malformed `\\u\x7b...\x7d` escape"
  | noScalar digits => "invalid unicode escape `\\u\x7b" ++ String.ofList digits ++ "\x7d`"
  | unknownEscape c => "unknown escape `\\" ++ String.singleton c ++ "`"
  | loneBackslash => "string literal ends in a lone `\\`"
  | malformedText => "malformed string literal"
  | malformedRawText => "malformed raw string literal"
  | byteText => "byte string literals are not supported, write the program as a `str` literal"
  | cText => "C string literals are not supported, write the program as a `str` literal"
  | noText spelling =>
    "expected program source string, found `" ++ String.ofList spelling ++ "`"

def hexNumber? (cs : List Char) : Option Nat :=
  if cs.isEmpty then none
  else cs.foldl (fun n c => do return (← n) * 16 + (← Text.hexValue? c)) (some 0)

/-- The character of a two-digit escape. A plus sign may stand for the first digit. -/
def byteScalar? : List Char → Option Char
  | [a, b] => do
    let n ← hexNumber? (if a = '+' then [b] else [a, b])
    if n ≤ 0x7F then Text.scalar? n else none
  | _ => none

def scalarDigits (digits : List Char) : List Char → Except Error (List Char × List Char)
  | [] => .error .malformedScalar
  | c :: cs =>
    if c = '\x7d' then .ok (digits, cs)
    else if c = '_' && !digits.isEmpty then scalarDigits digits cs
    else if (Text.hexValue? c).isSome && digits.length < 6 then scalarDigits (digits ++ [c]) cs
    else .error .malformedScalar

def scalarEscape : List Char → Except Error (Char × List Char)
  | '\x7b' :: cs => do
    let (digits, rest) ← scalarDigits [] cs
    match (hexNumber? digits).bind Text.scalar? with
    | some c => return (c, rest)
    | none => throw (.noScalar digits)
  | _ => .error .braceExpected

def simpleEscape? (c : Char) : Option Char :=
  if c = 'n' then some '\n'
  else if c = 'r' then some '\r'
  else if c = 't' then some '\t'
  else if c = '0' then some '\x00'
  else if c = '\\' || c = '"' || c = '\x27' then some c
  else none

/-- What an escape stands for, and the text after it. The end of a line is skipped together with
the blanks after it. -/
def escape : List Char → Except Error (List Char × List Char)
  | [] => .error .loneBackslash
  | c :: cs =>
    match simpleEscape? c with
    | some d => .ok ([d], cs)
    | none =>
      if c = 'x' then
        match byteScalar? (cs.take 2) with
        | some d => .ok ([d], cs.drop 2)
        | none => .error (.byteEscape (cs.take 2))
      else if c = 'u' then (scalarEscape cs).map fun (d, rest) => ([d], rest)
      else if c = '\n' then .ok ([], cs.dropWhile Text.isBlank)
      else .error (.unknownEscape c)

theorem length_scalarDigits {digits cs ds rest : List Char}
    (h : scalarDigits digits cs = .ok (ds, rest)) : rest.length ≤ cs.length := by
  induction cs generalizing digits with
  | nil => simp [scalarDigits] at h
  | cons c cs ih =>
    rw [scalarDigits] at h
    split at h
    · cases h
      simp
    · split at h
      · exact Nat.le_succ_of_le (ih h)
      · split at h
        · exact Nat.le_succ_of_le (ih h)
        · cases h

theorem length_scalarEscape {cs rest : List Char} {c : Char}
    (h : scalarEscape cs = .ok (c, rest)) : rest.length ≤ cs.length := by
  unfold scalarEscape at h
  split at h
  · rename_i cs
    cases hd : scalarDigits [] cs with
    | error e => simp [hd, bind, Except.bind] at h
    | ok r =>
      obtain ⟨digits, after⟩ := r
      simp only [hd, bind, Except.bind] at h
      split at h
      · cases h
        exact Nat.le_succ_of_le (length_scalarDigits hd)
      · cases h
  · cases h

theorem length_escape {cs ds rest : List Char} (h : escape cs = .ok (ds, rest)) :
    rest.length ≤ cs.length := by
  cases cs with
  | nil => simp [escape] at h
  | cons c cs =>
    simp only [escape] at h
    split at h
    · cases h
      simp
    · split at h
      · split at h
        · cases h
          simp
          omega
        · cases h
      · split at h
        · cases hs : scalarEscape cs with
          | error e => simp [hs, Except.map] at h
          | ok r =>
            simp only [hs, Except.map, Except.ok.injEq, Prod.mk.injEq] at h
            rw [← h.2]
            exact Nat.le_succ_of_le (length_scalarEscape hs)
        · split at h
          · cases h
            exact Nat.le_succ_of_le (List.dropWhile_suffix _).length_le
          · cases h

def decodeBody : List Char → Except Error (List Char)
  | [] => .ok []
  | c :: cs =>
    if c = '\\' then
      match _h : escape cs with
      | .error e => .error e
      | .ok (ds, rest) => (decodeBody rest).map (ds ++ ·)
    else (decodeBody cs).map (c :: ·)
termination_by cs => cs.length
decreasing_by
  · exact Nat.lt_succ_of_le (length_escape (by assumption))
  · simp

def dropEnding? (cs ending : List Char) : Option (List Char) :=
  if ending.isSuffixOf cs then some (cs.take (cs.length - ending.length)) else none

def rawBody? (cs : List Char) : Option (List Char) :=
  let fence := cs.takeWhile (· == '#')
  match cs.dropWhile (· == '#') with
  | '"' :: rest => dropEnding? rest ('"' :: fence)
  | _ => none

def decode (spelling : List Char) : Except Error (List Char) :=
  match spelling with
  | '"' :: rest =>
    match dropEnding? rest ['"'] with
    | some body => decodeBody body
    | none => .error .malformedText
  | 'r' :: rest =>
    match rawBody? rest with
    | some body => .ok body
    | none => .error .malformedRawText
  | 'b' :: _ => .error .byteText
  | 'c' :: _ => .error .cText
  | _ => .error (.noText spelling)

end RegAsm.Literal
