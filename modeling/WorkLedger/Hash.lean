import WorkLedger.Bytes.Hex
import WorkLedger.Hash.Ripemd160
import WorkLedger.Hash.Sha256

/-! The digests the ledger uses: the hash of a text as it stands in blocks, the fingerprint of a key
and the checksum that guards an address. -/

namespace WorkLedger

/-- SHA-256 of the UTF-8 bytes of a text, as 64 small hexadecimal digits. -/
def sha256Hex (text : String) : String := Hex.encode (Sha256.finalState text.toUTF8).bytes

/-- RIPEMD-160 of SHA-256. -/
def hash160 (message : Bytes) : Bytes := ripemd160 (sha256 message)

/-- The first four bytes of SHA-256 taken twice. -/
def checksum (payload : Bytes) : Bytes := (sha256 (sha256 payload)).take 4

end WorkLedger
