/-! Positional notation in any base. Digits run from the most significant to the least, without
leading zeros, so zero has none. -/

namespace WorkLedger.Radix

/-- Digits from the least significant. A number has at most `log2 + 1` of them in any base from two
on, which is what the callers give as `room`. -/
def digitsUp (base : Nat) : (room : Nat) → Nat → List Nat
  | 0, _ => []
  | room + 1, n => if n = 0 then [] else n % base :: digitsUp base room (n / base)

def digits (base n : Nat) : List Nat := (digitsUp base (n.log2 + 1) n).reverse

def value (base : Nat) (ds : List Nat) : Nat := ds.foldl (fun acc d => acc * base + d) 0

end WorkLedger.Radix
