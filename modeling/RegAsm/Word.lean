import RegAsm.Decimal

namespace RegAsm

/-- Registers hold signed 64-bit integers; arithmetic wraps around. -/
abbrev Word := Int64

namespace Word

def ofInt? (n : Int) : Option Word :=
  if Int64.minValue.toInt ≤ n ∧ n ≤ Int64.maxValue.toInt then some (Int64.ofInt n) else none

def read? (cs : List Char) : Option Word :=
  (Decimal.toInt? cs).bind ofInt?

def text (w : Word) : String :=
  Decimal.ofInt w.toInt

def order (a b : Word) : Ordering :=
  compare a.toInt b.toInt

theorem ofInt?_toInt (w : Word) : ofInt? w.toInt = some w := by
  rw [ofInt?, if_pos ⟨w.minValue_le_toInt, w.toInt_le⟩, Int64.ofInt_toInt]

end Word

end RegAsm
