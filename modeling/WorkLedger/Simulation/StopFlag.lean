/-! The flag that ends a run. Once set it stays set, and whoever sleeps looks at it again and
again. -/

namespace WorkLedger.StopFlag

/-- The longest time between two looks at the flag (ms). -/
def slice : Nat := 20

/-- Sleeps for the time that remains, where `flag t` is what the flag shows after `t` ms. Gives
whether the flag was seen, and the time that went by. -/
def sleepFrom (flag : Nat → Bool) (remaining elapsed : Nat) : Bool × Nat :=
  if flag elapsed then (true, elapsed)
  else if _h : remaining = 0 then (false, elapsed)
  else
    let step := min remaining slice
    sleepFrom flag (remaining - step) (elapsed + step)
termination_by remaining
decreasing_by
  simp only [slice]
  omega

def sleep (flag : Nat → Bool) (duration : Nat) : Bool × Nat := sleepFrom flag duration 0

end WorkLedger.StopFlag
