/-!
# Powers of two and of ten

Binary numbers are scaled by powers of two and decimals by powers of ten.
-/

set_option autoImplicit false

namespace RedoLog

def twoTo (n : Nat) : Nat :=
  Nat.pow 2 n

def tenTo (n : Nat) : Nat :=
  Nat.pow 10 n

theorem two_to_zero : twoTo 0 = 1 :=
  rfl

theorem two_to_succ (n : Nat) : twoTo (n + 1) = twoTo n * 2 :=
  rfl

theorem ten_to_zero : tenTo 0 = 1 :=
  rfl

end RedoLog
