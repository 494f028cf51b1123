import WorkLedger.Moment
import WorkLedger.OrderedMap
import WorkLedger.Wallet

/-! Named wallets, in the order of the names. -/

namespace WorkLedger

abbrev WalletBook := OrderedMap String Wallet

namespace WalletBook

/-- A book with these wallets; of a name met twice the last wallet stays. -/
def ofEntries (entries : List (String × Wallet)) : WalletBook := OrderedMap.ofList entries

/-- A new wallet from a drawn number, under a name that is still free. -/
def create (book : WalletBook) (name : String) (draw : Nat) : Except Error (String × WalletBook) :=
  if book.contains name then .error (.wallet ("A wallet named '" ++ name ++ "' already exists"))
  else
    let wallet := Wallet.ofDraw draw
    .ok (wallet.address, book.insert name wallet)

/-- The wallet under a name, which is new if there was none. -/
def getOrCreate (book : WalletBook) (name : String) (draw : Nat) : Wallet × WalletBook :=
  match book.get? name with
  | some wallet => (wallet, book)
  | none =>
    let wallet := Wallet.ofDraw draw
    (wallet, book.insert name wallet)

/-- Names with their addresses. -/
def addresses (book : WalletBook) : List (String × String) :=
  book.entries.map fun e => (e.1, e.2.address)

end WalletBook

end WorkLedger
