import RegAsm.Text.Blank

namespace RegAsm.Text

def width (cs : List Char) : Nat :=
  cs.foldr (fun c n => c.utf8Size + n) 0

@[simp] theorem width_nil : width [] = 0 := rfl

@[simp] theorem width_cons (c : Char) (cs : List Char) :
    width (c :: cs) = c.utf8Size + width cs := rfl

@[simp] theorem width_append (cs ds : List Char) : width (cs ++ ds) = width cs + width ds := by
  induction cs with
  | nil => simp
  | cons c cs ih => simp [ih, Nat.add_assoc]

def trimStart (cs : List Char) : List Char :=
  cs.dropWhile isBlank

def trimEnd (cs : List Char) : List Char :=
  (cs.reverse.dropWhile isBlank).reverse

def trim (cs : List Char) : List Char :=
  trimEnd (trimStart cs)

def indent (cs : List Char) : Nat :=
  width (cs.takeWhile isBlank)

/-- The lines of a text, split at every line feed; the empty text has one line. -/
def lines (cs : List Char) : List (List Char) :=
  cs.foldr (fun c ls => if c = '\n' then [] :: ls else ls.modifyHead (c :: ·)) [[]]

@[simp] theorem lines_nil : lines [] = [[]] := rfl

@[simp] theorem lines_newline (cs : List Char) : lines ('\n' :: cs) = [] :: lines cs := rfl

theorem lines_cons {c : Char} (h : c ≠ '\n') (cs : List Char) :
    lines (c :: cs) = (lines cs).modifyHead (c :: ·) := by
  simp [lines, h]

def padLeft (n : Nat) (s : String) : String :=
  String.ofList (s.toList.leftpad n ' ')

def padRight (n : Nat) (s : String) : String :=
  String.ofList (s.toList.rightpad n ' ')

end RegAsm.Text
