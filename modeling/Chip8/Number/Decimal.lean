import Chip8.Number.Binary64
import Chip8.Text.Blank

namespace Chip8.Decimal

def digitsOf (cs : List Char) : List Char := cs.takeWhile Char.isDigit

def afterDigits (cs : List Char) : List Char := cs.dropWhile Char.isDigit

def valueOf (ds : List Char) : Nat := ds.foldl (fun n c ↦ 10 * n + (c.toNat - '0'.toNat)) 0

def splitSign : List Char → Bool × List Char
  | '-' :: cs => (true, cs)
  | '+' :: cs => (false, cs)
  | cs => (false, cs)

def leadingInt? (s : String) : Option Int :=
  let (negative, cs) := splitSign (Text.trimStart s.toList)
  match digitsOf cs with
  | [] => none
  | ds => some (if negative then -valueOf ds else valueOf ds)

def leadingExponent : List Char → Int
  | c :: cs =>
    if c = 'e' ∨ c = 'E' then
      let (negative, ds) := splitSign cs
      if negative then -valueOf (digitsOf ds) else valueOf (digitsOf ds)
    else 0
  | [] => 0

structure Scientific where
  negative : Bool
  whole : List Char
  fraction : List Char
  exponent : Int

def leadingScientific? (s : String) : Option Scientific :=
  let (negative, cs) := splitSign (Text.trimStart s.toList)
  let whole := digitsOf cs
  let (fraction, rest) :=
    match afterDigits cs with
    | '.' :: r => (digitsOf r, afterDigits r)
    | r => ([], r)
  if whole.isEmpty && fraction.isEmpty then none
  else some ⟨negative, whole, fraction, leadingExponent rest⟩

def Scientific.value? (d : Scientific) : Option Rat :=
  (Binary64.ofDecimal? (valueOf (d.whole ++ d.fraction)) (d.exponent - d.fraction.length)).map
    fun q ↦ if d.negative then -q else q

def leadingNumber? (s : String) : Option Rat := (leadingScientific? s).bind Scientific.value?

def leadingWhole? (s : String) : Option Rat := (leadingInt? s).bind fun n ↦ Binary64.ofRat? n

end Chip8.Decimal
