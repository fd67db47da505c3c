import Chip8.Number.Whole

namespace Chip8

/-- The pixels row by row, each row from the left. -/
abbrev Frame := Vector Bool 2048

namespace Frame

def width : Nat := 64

def height : Nat := 32

def blank : Frame := Vector.replicate 2048 false

def place (x y : Nat) : Fin 2048 :=
  ⟨y % 32 * 64 + x % 64, by omega⟩

def pixel (f : Frame) (x y : Nat) : Bool := f[place x y]

def ofPixels (p : Nat → Nat → Bool) : Frame :=
  ⟨((List.range 2048).map fun k ↦ p (k % 64) (k / 64)).toArray, by simp⟩

theorem pixel_ofPixels (p : Nat → Nat → Bool) (x y : Nat) :
    (ofPixels p).pixel x y = p (x % 64) (y % 32) := by
  have hx : (y % 32 * 64 + x % 64) % 64 = x % 64 := by omega
  have hy : (y % 32 * 64 + x % 64) / 64 = y % 32 := by omega
  simp [pixel, ofPixels, place, hx, hy]

def lit (f : Frame) : Nat := f.countP id

def rowColumns (row : UInt8) : List Nat :=
  (List.range 8).filter fun col ↦ row.toNat.testBit (7 - col)

/-- The places that a sprite at `(x, y)` touches, row by row; one place may come twice. Coordinates
are rounded sums, so columns beyond the exact limit may coincide. -/
def spritePlaces (x y : Nat) (rows : List UInt8) : List (Fin 2048) :=
  rows.zipIdx.flatMap fun (row, r) ↦
    (rowColumns row).map fun col ↦ place (Whole.sum x col) (Whole.sum y r)

def flip (f : Frame) (p : Fin 2048) : Frame := f.set p (!f.get p)

def flipAll (f : Frame) (hit : Bool) : List (Fin 2048) → Frame × Bool
  | [] => (f, hit)
  | p :: ps =>
    let lit := f[p]
    flipAll (f.set p (!lit)) (hit || lit) ps

theorem flipAll_cons (f : Frame) (hit : Bool) (p : Fin 2048) (ps : List (Fin 2048)) :
    flipAll f hit (p :: ps) = flipAll (f.flip p) (hit || f.get p) ps := rfl

def draw (f : Frame) (x y : Nat) (rows : List UInt8) : Frame × Bool :=
  flipAll f false (spritePlaces x y rows)

end Frame

structure Screen where
  frame : Frame
  revision : Nat
  deriving DecidableEq

namespace Screen

def initial : Screen := ⟨Frame.blank, 0⟩

def clear (s : Screen) : Screen := ⟨Frame.blank, s.revision + 1⟩

/-- A sprite without a row also counts as a change. The flag tells of a collision. -/
def draw (s : Screen) (x y : Nat) (rows : List UInt8) : Screen × Bool :=
  let (frame, hit) := Frame.draw s.frame x y rows
  (⟨frame, s.revision + 1⟩, hit)

def drawNumbers (s : Screen) (x y : Nat) (rows : List Int) : Screen × Bool :=
  s.draw x y (rows.map UInt8.ofInt)

end Screen

end Chip8
