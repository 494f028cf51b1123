/-! A byte shown to a reader: as the Latin-1 character of that number between single quotes, with
the unprintable ones spelled by number. -/

namespace WorkLedger.Text

/-- Control characters, the blank that does not break and the hyphen that does not show. -/
def unprintable (b : UInt8) : Bool := b < 0x20 || (0x7f ≤ b && b ≤ 0xa0) || b == 0xad

/-- A number in base 16 with small letters and no leading zero. -/
def lowerHex (n : Nat) : String := String.ofList (Nat.toDigits 16 n)

def quoteByte (b : UInt8) : String :=
  let inside :=
    if b == 0 then "\\0"
    else if b == 9 then "\\t"
    else if b == 10 then "\\n"
    else if b == 13 then "\\r"
    else if b == 0x27 then "\\'"
    else if b == 0x5c then "\\\\"
    else if unprintable b then "\\u\x7b" ++ lowerHex b.toNat ++ "\x7d"
    else String.singleton (Char.ofNat b.toNat)
  "'" ++ inside ++ "'"

end WorkLedger.Text
