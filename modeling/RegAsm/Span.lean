import RegAsm.Decimal

namespace RegAsm

/-- Line and column, both counted from one; columns count bytes. -/
structure Span where
  line : UInt32
  col : UInt32
deriving DecidableEq, Repr, Inhabited

namespace Span

/-- The place `n` bytes further on the same line. A column that does not fit into 32 bits wraps
around. -/
def advance (s : Span) (n : Nat) : Span :=
  { s with col := s.col + UInt32.ofNat n }

def text (s : Span) : String :=
  Decimal.ofNat s.line.toNat ++ ":" ++ Decimal.ofNat s.col.toNat

@[simp] theorem advance_line (s : Span) (n : Nat) : (s.advance n).line = s.line := rfl

@[simp] theorem advance_zero (s : Span) : s.advance 0 = s := by
  simp [advance]

theorem advance_advance (s : Span) (m n : Nat) : (s.advance m).advance n = s.advance (m + n) := by
  simp [advance, UInt32.add_assoc]

end Span

end RegAsm
