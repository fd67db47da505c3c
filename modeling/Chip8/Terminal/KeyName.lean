import Chip8.Text.Lowercase
import Chip8.Text.Units

namespace Chip8

/-- A key by its name, or half of a character that is none by itself. -/
inductive KeyName
  | text (name : String)
  | half (unit : UInt16)
  deriving DecidableEq, Repr

inductive KeyToken
  | interrupt
  | function (name : String)
  | unmapped
  | escape
  | printable (unit : UInt16)
  | control (unit : UInt16)
  deriving DecidableEq, Repr

namespace KeyToken

def escapeUnit : UInt16 := 0x1B

def functions : List (List UInt16 × String) :=
  [("OP", "f1"), ("OQ", "f2"), ("OR", "f3"), ("[11~", "f1"), ("[12~", "f2"), ("[13~", "f3"),
    ("[15~", "f5")].map fun (s, name) ↦ (Text.units s, name)

def isFinal (u : UInt16) : Bool := (0x41 ≤ u && u ≤ 0x5A) || (0x61 ≤ u && u ≤ 0x7A) || u == 0x7E

def skipSequence (us : List UInt16) : List UInt16 := (us.dropWhile (!isFinal ·)).tail

def function? (us : List UInt16) : Option (String × List UInt16) :=
  functions.findSome? fun (start, name) ↦
    if start.isPrefixOf us then some (name, us.drop start.length) else none

def afterEscape (us : List UInt16) : KeyToken × List UInt16 :=
  match function? us with
  | some (name, rest) => (function name, rest)
  | none =>
    match us with
    | u :: rest => if u = 0x5B ∨ u = 0x4F then (unmapped, skipSequence rest) else (escape, us)
    | [] => (escape, [])

def first (u : UInt16) (us : List UInt16) : KeyToken × List UInt16 :=
  if u = 0x03 then (interrupt, us)
  else if u = escapeUnit then afterEscape us
  else if 0x20 ≤ u ∧ u ≠ 0x7F then (printable u, us)
  else (control u, us)

theorem length_skipSequence_le (us : List UInt16) : (skipSequence us).length ≤ us.length := by
  have h := (List.dropWhile_sublist (fun u ↦ !isFinal u) (l := us)).length_le
  simp only [skipSequence, List.length_tail]
  omega

theorem length_afterEscape_le (us : List UInt16) : (afterEscape us).2.length ≤ us.length := by
  unfold afterEscape
  split
  · next h =>
    obtain ⟨⟨start, name⟩, _, hs⟩ := List.exists_of_findSome?_eq_some h
    simp only [Option.ite_none_right_eq_some, Option.some.injEq, Prod.mk.injEq] at hs
    simp [← hs.2.2]
  · split
    · next u rest _ =>
      split
      · have := length_skipSequence_le rest
        simp only [List.length_cons]
        omega
      · simp
    · simp

theorem length_first_le (u : UInt16) (us : List UInt16) : (first u us).2.length ≤ us.length := by
  unfold first
  split
  · simp
  · split
    · exact length_afterEscape_le us
    · split <;> simp

def split : List UInt16 → List KeyToken
  | [] => []
  | u :: us => (first u us).1 :: split (first u us).2
termination_by us => us.length
decreasing_by
  have := length_first_le u us
  simp only [List.length_cons]
  omega

def printableName (u : UInt16) : KeyName :=
  if Text.isSurrogate u then .half u
  else .text (String.ofList (Text.lowercaseChar (Char.ofNat u.toNat)))

def name? : KeyToken → Option KeyName
  | interrupt => some (.text "ctrl-c")
  | function name => some (.text name)
  | unmapped => none
  | escape => some (.text "escape")
  | printable u => some (printableName u)
  | control _ => none

end KeyToken

namespace KeyName

def ofUnits (us : List UInt16) : List KeyName := (KeyToken.split us).filterMap KeyToken.name?

def ofString (s : String) : List KeyName := ofUnits (Text.units s)

end KeyName

end Chip8
