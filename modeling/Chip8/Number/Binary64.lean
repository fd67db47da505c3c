namespace Chip8.Binary64

def twoPow (e : Int) : Rat :=
  if 0 ≤ e then (Nat.pow 2 e.toNat : Nat) else mkRat 1 (Nat.pow 2 (-e).toNat)

def magnitude (q : Rat) : Rat := if q < 0 then -q else q

def log2 (q : Rat) : Int :=
  let e : Int := (Nat.log2 q.num.natAbs : Int) - (Nat.log2 q.den : Int)
  if magnitude q < twoPow e then e - 1 else e

def roundHalfEven (q : Rat) : Int :=
  let f := q.floor
  let r := q - f
  if r < mkRat 1 2 then f
  else if mkRat 1 2 < r then f + 1
  else if f % 2 = 0 then f
  else f + 1

def lastPlace (q : Rat) : Int := max (log2 q - 52) (-1074)

/-- The nearest number of 53 binary places, with no bound on its size. -/
def round (q : Rat) : Rat :=
  if q = 0 then 0 else roundHalfEven (q / twoPow (lastPlace q)) * twoPow (lastPlace q)

def ofRat? (q : Rat) : Option Rat :=
  let r := round q
  if magnitude r < twoPow 1024 then some r else none

/-- The nearest finite number to `m * 10 ^ e`. Powers beyond the range are not computed. -/
def ofDecimal? (m : Nat) (e : Int) : Option Rat :=
  if m = 0 then some 0
  else if 400 < e then none
  else if e + m.log2 + 1 < -400 then some 0
  else if 0 ≤ e then ofRat? (m * Nat.pow 10 e.toNat : Nat)
  else ofRat? (mkRat m (Nat.pow 10 (-e).toNat))

def add (a b : Rat) : Rat := round (a + b)

def sub (a b : Rat) : Rat := round (a - b)

def div (a b : Rat) : Rat := round (a / b)

def bits (q : Rat) : Nat :=
  if q = 0 then 0
  else
    let p := lastPlace q
    let m := (magnitude q / twoPow p).floor.toNat
    let sign := if q < 0 then Nat.pow 2 63 else 0
    sign + (p + 1074).toNat * Nat.pow 2 52 + m

end Chip8.Binary64
