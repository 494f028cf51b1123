/-! The failures that stop an operation. A transaction or block that is merely turned away is not
one of them: that is a verdict of the rules. -/

namespace WorkLedger

inductive Error
  | database (detail : String)
  | crypto (detail : String)
  | wallet (detail : String)
  | config (detail : String)
  | serialization (detail : String)
  | io (detail : String)
  | invalidAddress (detail : String)
  | invalidBlock (detail : String)
  /-- A derived balance went below zero, so the ledger can no longer be trusted. -/
  | negativeBalance (address : String) (balance : Int)
  deriving Repr, DecidableEq

namespace Error

def message : Error → String
  | database detail => "Database error: " ++ detail
  | crypto detail => "Cryptographic error: " ++ detail
  | wallet detail => "Wallet error: " ++ detail
  | config detail => "Configuration error: " ++ detail
  | serialization detail => "Serialization error: " ++ detail
  | io detail => "I/O error: " ++ detail
  | invalidAddress detail => "Invalid address: " ++ detail
  | invalidBlock detail => "Invalid block: " ++ detail
  | negativeBalance address balance =>
    s!"Negative balance occurred for {address}: {balance}, shutting down simulation"

/-- Stored bytes that do not spell the record they should. -/
def unreadableRecord : Error := .serialization "Deserialization failed"

/-- A clock that shows a time before 1970. -/
def clockBeforeEpoch : Error :=
  .crypto "System time error: second time provided was later than self"

/-- A key file that does not hold a key of the right kind. -/
def unreadableKey : Error := .crypto "Failed to create key pair from PKCS8"

end Error

end WorkLedger
