import WorkLedger.Address
import WorkLedger.Balance
import WorkLedger.BalanceSheet
import WorkLedger.Binary
import WorkLedger.Block
import WorkLedger.Block.Record
import WorkLedger.Bytes
import WorkLedger.Bytes.Base58
import WorkLedger.Bytes.Hex
import WorkLedger.Bytes.Radix
import WorkLedger.CommandLine.Argument
import WorkLedger.CommandLine.Command
import WorkLedger.CommandLine.Disk
import WorkLedger.CommandLine.Log
import WorkLedger.CommandLine.Machine
import WorkLedger.CommandLine.Reading
import WorkLedger.CommandLine.Request
import WorkLedger.CommandLine.Run
import WorkLedger.Curve
import WorkLedger.Difficulty
import WorkLedger.Digest
import WorkLedger.Error
import WorkLedger.Export
import WorkLedger.Hash
import WorkLedger.Hash.Ripemd160
import WorkLedger.Hash.Sha256
import WorkLedger.Json.Fields
import WorkLedger.Json.Printer
import WorkLedger.Json.Quoted
import WorkLedger.Json.Reader
import WorkLedger.Json.Value
import WorkLedger.KeyFile
import WorkLedger.Ledger
import WorkLedger.Main
import WorkLedger.Moment
import WorkLedger.OrderedMap
import WorkLedger.Participants
import WorkLedger.Payment
import WorkLedger.Proofs.Balance.Exact
import WorkLedger.Proofs.Balance.Saturation
import WorkLedger.Proofs.Ledger.Run
import WorkLedger.Proofs.Rules.Backing
import WorkLedger.Proofs.Rules.Verdicts
import WorkLedger.Rules.Acceptance
import WorkLedger.Rules.Admission
import WorkLedger.Rules.Verification
import WorkLedger.Settings
import WorkLedger.Signature
import WorkLedger.Signature.Der
import WorkLedger.Simulation.Arena
import WorkLedger.Simulation.Client
import WorkLedger.Simulation.Miner
import WorkLedger.Simulation.Report
import WorkLedger.Simulation.Shared
import WorkLedger.Simulation.Simulator
import WorkLedger.Simulation.StopFlag
import WorkLedger.Stock
import WorkLedger.Store
import WorkLedger.Store.Image
import WorkLedger.Text.Blank
import WorkLedger.Text.CharSet
import WorkLedger.Text.Pattern
import WorkLedger.Text.Pattern.Reader
import WorkLedger.Text.Pattern.Room
import WorkLedger.Text.Quoted
import WorkLedger.Text.Scan
import WorkLedger.Text.Unsigned
import WorkLedger.Toml.Number
import WorkLedger.Toml.Reader
import WorkLedger.Toml.Table
import WorkLedger.Transaction
import WorkLedger.Wallet
import WorkLedger.WalletBook
import WorkLedger.Work
import WorkLedger.Proofs.Commitment.Evaluation
import WorkLedger.Proofs.Ledger.Accounting
import WorkLedger.Proofs.Ledger.Solvency
import WorkLedger.Proofs.Ledger.Authenticity
import WorkLedger.Proofs.Balance.Sheet
import WorkLedger.Proofs.Rules.Replay
import WorkLedger.Proofs.Ledger.SelfConsistency
import WorkLedger.Proofs.Commitment.Texts
import WorkLedger.Proofs.Commitment.Chain
import WorkLedger.Proofs.Mining.Race
import WorkLedger.Proofs.Ledger.Ownership
import WorkLedger.Proofs.Ledger.Loading
import WorkLedger.Proofs.Balance.Supply
import WorkLedger.Proofs.Ledger.Completeness
import WorkLedger.Proofs.Store.Codec
import WorkLedger.Proofs.Store.Order
import WorkLedger.Proofs.Store.Reload
import WorkLedger.Proofs.Rules.Recount
import WorkLedger.Proofs.Simulation.Resume
import WorkLedger.Proofs.Ledger.Timeliness
import WorkLedger.Proofs.Mining.Order
import WorkLedger.Proofs.Rules.Continuation
import WorkLedger.Proofs.Ledger.Extension
import WorkLedger.Proofs.Simulation.Interruption
import WorkLedger.Proofs.Ledger.Independence
import WorkLedger.Proofs.Commitment.Header
import WorkLedger.Proofs.Simulation.Target
import WorkLedger.Proofs.Rules.Demand
import WorkLedger.Proofs.Balance.Running
import WorkLedger.Proofs.Store.Delimiting
import WorkLedger.Proofs.Json.Quoted
import WorkLedger.Proofs.Json.Document
import WorkLedger.Proofs.Json.Fields
import WorkLedger.Proofs.Export.Roundtrip
import WorkLedger.Proofs.Address.Base58
import WorkLedger.Proofs.Address.Validity
import WorkLedger.Proofs.Commitment.Digest
import WorkLedger.Proofs.Ledger.Movement
import WorkLedger.Proofs.Store.Saves
import WorkLedger.Proofs.Rules.Thresholds
import WorkLedger.Proofs.Mining.Outcome
import WorkLedger.Proofs.Simulation.Failure
import WorkLedger.Proofs.Simulation.Clock
