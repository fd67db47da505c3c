import Chip8.Dialect
import Chip8.Text.Blank
import Chip8.Text.Lowercase

namespace Chip8.Dialect

def names : List (String × Nat) :=
  [("shift-vy", shiftsSecond), ("bnnn-vx", jumpsByX), ("fx-i", movesIndex)]

structure UnknownName where
  name : String
  deriving DecidableEq, Repr

def UnknownName.message (e : UnknownName) : String :=
  "Unknown quirk \"" ++ e.name ++ "\" (expected one of: " ++
    ", ".intercalate (names.map Prod.fst) ++ ", all)"

def parts (s : String) : List String := (s.toList.splitOn ',').map String.ofList

def bitsOf (part : String) : Except UnknownName Nat :=
  let name := Text.lowercase (Text.trim part)
  if name.isEmpty then .ok 0
  else if name = "all" then .ok all
  else
    match names.lookup name with
    | some flag => .ok flag
    | none => .error ⟨Text.trim part⟩

def union : List String → Except UnknownName Nat
  | [] => .ok 0
  | p :: ps => do
    let flag ← bitsOf p
    let rest ← union ps
    return flag ||| rest

def ofNames (s : String) : Except UnknownName Dialect := (union (parts s)).map Dialect.mk

end Chip8.Dialect
