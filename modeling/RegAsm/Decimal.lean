namespace RegAsm.Decimal

def ofNat (n : Nat) : String :=
  String.ofList (Nat.toDigits 10 n)

def ofInt : Int → String
  | .ofNat n => ofNat n
  | .negSucc n => "-" ++ ofNat (n + 1)

def isNumeral (cs : List Char) : Bool :=
  !cs.isEmpty && cs.all Char.isDigit

def toNat? (cs : List Char) : Option Nat :=
  if isNumeral cs then some (Nat.ofDigitChars 10 cs 0) else none

def toInt? : List Char → Option Int
  | '+' :: cs => (toNat? cs).map fun n => n
  | '-' :: cs => (toNat? cs).map fun n => -n
  | cs => (toNat? cs).map fun n => n

theorem isNumeral_toDigits (n : Nat) : isNumeral (Nat.toDigits 10 n) = true := by
  have h : ∀ c ∈ Nat.toDigits 10 n, c.isDigit = true :=
    fun c hc => Nat.isDigit_of_mem_toDigits (by decide) (by decide) hc
  simpa [isNumeral, Nat.toDigits_ne_nil] using h

@[simp] theorem toNat?_toDigits (n : Nat) : toNat? (Nat.toDigits 10 n) = some n := by
  rw [toNat?, if_pos (isNumeral_toDigits n), Nat.ofDigitChars_ten_toDigits]

end RegAsm.Decimal
