namespace RegAsm

structure Limits where
  maxSteps : Option UInt64 := none
  maxCallDepth : Option UInt64 := none
  maxSourceBytes : UInt64 := 64 * 1024 * 1024
deriving DecidableEq, Repr, Inhabited

namespace Limits

@[inline] def reached? (limit : Option UInt64) (used : Nat) : Option UInt64 :=
  match limit with
  | some max => if max.toNat ≤ used then some max else none
  | none => none

@[simp] theorem reached?_none (used : Nat) : reached? none used = none := rfl

theorem reached?_eq_none_iff {max : UInt64} {used : Nat} :
    reached? (some max) used = none ↔ used < max.toNat := by
  simp [reached?]

end Limits

end RegAsm
