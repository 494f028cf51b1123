import WorkLedger.Payment
import WorkLedger.Settings
import WorkLedger.WalletBook

/-! Who takes part in a run. Miners and clients are numbered, and a participant whose name is in the
book keeps the wallet it had. -/

namespace WorkLedger

structure Participant where
  name : String
  wallet : Wallet
  deriving Repr, DecidableEq

def Participant.address (p : Participant) : String := p.wallet.address

structure Participants where
  miners : List Participant
  clients : List Participant

namespace Participants

def minerName (i : Nat) : String := "Miner " ++ toString i
def clientName (i : Nat) : String := "Client " ++ toString i

/-- One participant for each name, with new wallets drawn from the numbers of a moment. -/
def enroll (m : Moment) (first : Nat) : List String → WalletBook → List Participant × WalletBook
  | [], book => ([], book)
  | name :: rest, book =>
    let (wallet, book) := book.getOrCreate name (m.draw first)
    let (others, book) := enroll m (first + 1) rest book
    (⟨name, wallet⟩ :: others, book)

def ofSettings (s : Settings) (book : WalletBook) (m : Moment) : Participants × WalletBook :=
  let (miners, book) := enroll m 0 ((List.range s.miners.toNat).map minerName) book
  let (clients, book) :=
    enroll m s.miners.toNat ((List.range s.clients.toNat).map clientName) book
  (⟨miners, clients⟩, book)

/-- Clients come first. -/
def all (ps : Participants) : List Participant := ps.clients ++ ps.miners

/-- Everybody but those who have this address. -/
def others (ps : Participants) (address : String) : List Participant :=
  ps.all.filter fun p => p.address != address

end Participants

end WorkLedger
