import WorkLedger.Simulation.Arena
import WorkLedger.Store

/-! What a command needs from outside the program. The computer is one such machine; a file tree in
memory is another. -/

namespace WorkLedger.CommandLine

structure Machine (μ : Type → Type) where
  moment : μ Moment
  environment : μ (String → Option String)
  /-- The content of a file, or none if there is no such file. What goes wrong is told in words. -/
  readFile : (path : String) → μ (Except String (Option Bytes))
  writeFile : (path content : String) → μ (Except String Unit)
  /-- The store in a folder, which is new if there was none. -/
  openStore : (folder : String) → μ (Except Error Store)
  /-- Puts a store back into its folder, and its document beside it if it has one. -/
  keepStore : (folder : String) → Store → μ (Except Error Unit)
  print : String → μ Unit
  /-- Tells a line beside the output. -/
  tell : String → μ Unit
  /-- Takes the workers of a run to the end of their work. -/
  work : Arena → μ Arena

end WorkLedger.CommandLine
