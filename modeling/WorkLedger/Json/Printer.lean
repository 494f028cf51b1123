import WorkLedger.Json.Value

/-! JSON over several lines: an entry a line, two blanks deeper than its brackets. Empty brackets
stay together. -/

namespace WorkLedger.Json

def newline (depth : Nat) : List Char := '\n' :: List.replicate (2 * depth) ' '

def quoted (written : List Char) : List Char := '"' :: (written ++ ['"'])

mutual

def Value.print (depth : Nat) : Value → List Char
  | .null => "null".toList
  | .boolean true => "true".toList
  | .boolean false => "false".toList
  | .integer n => (toString n).toList
  | .real literal => literal
  | .string written => quoted written
  | .array [] => ['[', ']']
  | .array (item :: items) =>
    '[' :: (newline (depth + 1) ++ item.print (depth + 1) ++ printItems (depth + 1) items ++
      newline depth ++ [']'])
  | .object [] => ['\x7b', '\x7d']
  | .object ((key, value) :: members) =>
    '\x7b' :: (newline (depth + 1) ++ quoted key ++ [':', ' '] ++ value.print (depth + 1) ++
      printMembers (depth + 1) members ++ newline depth ++ ['\x7d'])

/-- The items behind the first. -/
def printItems (depth : Nat) : List Value → List Char
  | [] => []
  | item :: items => ',' :: (newline depth ++ item.print depth ++ printItems depth items)

/-- The members behind the first. -/
def printMembers (depth : Nat) : List (List Char × Value) → List Char
  | [] => []
  | (key, value) :: members =>
    ',' :: (newline depth ++ quoted key ++ [':', ' '] ++ value.print depth ++
      printMembers depth members)

end

def Value.text (v : Value) : String := String.ofList (v.print 0)

end WorkLedger.Json
