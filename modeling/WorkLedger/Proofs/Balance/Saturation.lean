import Mathlib.Algebra.BigOperators.Group.List.Basic
import Mathlib.Algebra.Order.Ring.Int
import WorkLedger.Balance

/-! Saturating sums. A sum that is kept in range after each addition forgets how far it went past an
end. Amounts are never negative, so such a sum only ever stops at the greatest number: it is the
exact sum, cut off once. -/

namespace WorkLedger.Coins

theorem greatest_eq : greatest = 9223372036854775807 := by decide
theorem least_eq : least = -9223372036854775808 := by decide

theorem clamp_of_mem {x : Int} (hl : least ≤ x) (hg : x ≤ greatest) : clamp x = x := by
  unfold clamp; omega

theorem clamp_of_nonneg {x : Int} (hx : 0 ≤ x) : clamp x = min greatest x := by
  have hl := least_eq
  have hg := greatest_eq
  unfold clamp; omega

theorem ofAmount_nonneg (amount : UInt64) : 0 ≤ ofAmount amount := by
  have hg := greatest_eq
  unfold ofAmount; omega

theorem ofAmount_of_le {amount : UInt64} (h : (amount.toNat : Int) ≤ greatest) :
    ofAmount amount = amount.toNat := by
  unfold ofAmount; omega

/-- One more amount on top of an exact sum that was cut off. -/
theorem add_min_ofAmount (n : Nat) (amount : UInt64) :
    add (min greatest n) (ofAmount amount) = min greatest ((n + amount.toNat : Nat) : Int) := by
  have hg := greatest_eq
  have ha := ofAmount_nonneg amount
  rw [add, clamp_of_nonneg (by omega)]
  unfold ofAmount; omega

theorem foldl_add_min {α : Type} (amount : α → UInt64) (xs : List α) (n : Nat) :
    (xs.map fun x => ofAmount (amount x)).foldl add (min greatest n) =
      min greatest ((n + (xs.map fun x => (amount x).toNat).sum : Nat) : Int) := by
  induction xs generalizing n with
  | nil => rfl
  | cons x xs ih =>
    rw [List.map_cons, List.foldl_cons, add_min_ofAmount, ih, List.map_cons, List.sum_cons,
      Nat.add_assoc]

/-- The running sum of amounts is their exact sum, or the greatest number if that is less. -/
theorem sum_eq_min {α : Type} (amount : α → UInt64) (xs : List α) :
    sum (xs.map fun x => ofAmount (amount x)) =
      min greatest ((xs.map fun x => (amount x).toNat).sum : Nat) := by
  have hs := foldl_add_min amount xs 0
  rwa [Nat.zero_add] at hs

example : sum ([UInt64.ofNat 9223372036854775807, 5].map fun x => ofAmount x) = greatest := by
  decide

end WorkLedger.Coins
