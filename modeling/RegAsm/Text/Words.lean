import RegAsm.Text.Line

namespace RegAsm.Text

structure Piece where
  offset : Nat
  chars : List Char
deriving DecidableEq, Repr

def inWord (c : Char) : Bool :=
  !isSeparator c

theorem length_dropWhile_le (p : Char → Bool) (cs : List Char) :
    (cs.dropWhile p).length ≤ cs.length :=
  (List.dropWhile_suffix p).length_le

def words (offset : Nat) : List Char → List Piece
  | [] => []
  | c :: cs =>
    if isSeparator c then words (offset + c.utf8Size) cs
    else
      let word := c :: cs.takeWhile inWord
      ⟨offset, word⟩ :: words (offset + width word) (cs.dropWhile inWord)
termination_by cs => cs.length
decreasing_by
  · simp
  · exact Nat.lt_succ_of_le (length_dropWhile_le inWord cs)

@[simp] theorem words_nil (offset : Nat) : words offset [] = [] := by
  rw [words]

theorem words_separator {c : Char} (h : isSeparator c = true) (offset : Nat) (cs : List Char) :
    words offset (c :: cs) = words (offset + c.utf8Size) cs := by
  rw [words]; simp [h]

theorem words_word {c : Char} (h : isSeparator c = false) (offset : Nat) (cs : List Char) :
    words offset (c :: cs) = ⟨offset, c :: cs.takeWhile inWord⟩ ::
      words (offset + width (c :: cs.takeWhile inWord)) (cs.dropWhile inWord) := by
  rw [words]; simp [h]

def cutWord (cs : List Char) : List Char × List Char :=
  let code := trimStart cs
  (code.takeWhile inWord, code.dropWhile inWord)

end RegAsm.Text
