import Chip8.Number.Whole

namespace Chip8.Whole

/-- The multiple of ten to the `e` next to `n` that is read back as `n`, in units of ten to the
`e`. If there are two it is the nearer. -/
def multiple? (n e : Nat) : Option Nat :=
  let scale := Nat.pow 10 e
  let below := n / scale
  match round (below * scale) == n, round ((below + 1) * scale) == n with
  | true, true => some (halfEven n scale)
  | true, false => some below
  | false, true => some (below + 1)
  | false, false => none

def shortest (n : Nat) : (e : Nat) → Nat × Nat
  | 0 => (n, 0)
  | e + 1 =>
    match multiple? n (e + 1) with
    | some d => (d, e + 1)
    | none => shortest n e

def plainDigits : Nat := 21

def scientific (digits : List Char) (zeros : Nat) : List Char :=
  let point := if digits.length ≤ 1 then [] else ['.']
  digits.take 1 ++ point ++ digits.tail ++ ['e', '+'] ++
    (toString (digits.length + zeros - 1)).toList

def chars (n : Nat) : List Char :=
  let all := (toString n).toList
  if n ≤ exactLimit then all
  else
    let (d, zeros) := shortest n all.length
    let digits := (toString d).toList
    if digits.length + zeros ≤ plainDigits then digits ++ List.replicate zeros '0'
    else scientific digits zeros

/-- All digits up to the exact limit, beyond it only those that matter; zeros fill the places up to
21 digits, and larger numbers are written with an exponent. -/
def text (w : Whole) : String :=
  String.ofList (if w.val < 0 then '-' :: chars w.val.natAbs else chars w.val.natAbs)

end Chip8.Whole
