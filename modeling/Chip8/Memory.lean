import Chip8.Number.Whole

namespace Chip8

abbrev Image := Array UInt8

namespace Glyph

def rows : List UInt8 := [
  0xF0, 0x90, 0x90, 0x90, 0xF0,
  0x20, 0x60, 0x20, 0x20, 0x70,
  0xF0, 0x10, 0xF0, 0x80, 0xF0,
  0xF0, 0x10, 0xF0, 0x10, 0xF0,
  0x90, 0x90, 0xF0, 0x10, 0x10,
  0xF0, 0x80, 0xF0, 0x10, 0xF0,
  0xF0, 0x80, 0xF0, 0x90, 0xF0,
  0xF0, 0x10, 0x20, 0x40, 0x40,
  0xF0, 0x90, 0xF0, 0x90, 0xF0,
  0xF0, 0x90, 0xF0, 0x10, 0xF0,
  0xF0, 0x90, 0xF0, 0x90, 0x90,
  0xE0, 0x90, 0xE0, 0x90, 0xE0,
  0xF0, 0x80, 0x80, 0x80, 0xF0,
  0xE0, 0x90, 0x90, 0x90, 0xE0,
  0xF0, 0x80, 0xF0, 0x80, 0xF0,
  0xF0, 0x80, 0xF0, 0x80, 0x80]

def start : Nat := 0x050

def address (n : Int) : Nat := start + 5 * (n % 16).toNat

end Glyph

structure Memory where
  cells : Vector UInt8 4096
  deriving DecidableEq

namespace Memory

def size : Nat := 4096

def programStart : Nat := 0x200

def programLimit : Nat := size - programStart

def cell (a : Int) : Fin 4096 := ⟨(a % 4096).toNat, by omega⟩

def read (m : Memory) (a : Int) : UInt8 := m.cells[cell a]

def write (m : Memory) (a : Int) (b : UInt8) : Memory := ⟨m.cells.set (cell a) b⟩

theorem cell_natCast {a : Nat} (h : a < 4096) : cell a = ⟨a, h⟩ := by
  simp only [cell, Fin.mk.injEq]
  omega

theorem read_write (m : Memory) (a c : Int) (b : UInt8) :
    (m.write a b).read c = if cell a = cell c then b else m.read c := by
  simp only [read, write, Fin.getElem_fin, Vector.getElem_set, Fin.val_inj]

/-- The address after `a`, a rounded sum. -/
def next (a : Int) : Int := (Whole.nearest (a + 1)).val

theorem next_natCast {a : Nat} (h : a < Whole.exactLimit) : next a = a + 1 :=
  Whole.val_nearest_of_le (by omega)

def readWord (m : Memory) (a : Int) : UInt16 :=
  UInt16.ofNat (0x100 * (m.read a).toNat + (m.read (next a)).toNat)

/-- Whether the `len` cells from `a` on all exist. The address is not masked. -/
def inBounds (a len : Int) : Bool := 0 ≤ a && 0 ≤ len && a + len ≤ 4096

/-- The end of a range, counted from the end of memory if negative and held within memory. -/
private def clip (a : Int) : Nat := if a < 0 then (4096 + a).toNat else min a.toNat 4096

def slice (m : Memory) (a len : Int) : List UInt8 :=
  let first := clip a
  let last := clip (min 4096 (a + len))
  (List.range (last - first)).map fun k ↦ m.read (first + k : Nat)

theorem slice_natCast (m : Memory) {a len : Nat} (h : a + len ≤ 4096) :
    m.slice a len = (List.range len).map fun k ↦ m.read (a + k : Nat) := by
  have hfirst : clip a = a := by
    rw [clip, if_neg (by omega)]
    omega
  have hlast : clip (min 4096 (a + len)) = a + len := by
    rw [clip, if_neg (by omega)]
    omega
  simp only [slice, hfirst, hlast, Nat.add_sub_cancel_left]

def ofFn (f : Nat → UInt8) : Memory := ⟨⟨((List.range 4096).map f).toArray, by simp⟩⟩

theorem read_ofFn (f : Nat → UInt8) (a : Int) : (ofFn f).read a = f (cell a) := by
  simp [read, ofFn]

def initial : Memory :=
  ofFn fun a ↦ if Glyph.start ≤ a then Glyph.rows.getD (a - Glyph.start) 0 else 0

/-- The program region takes the image, cut to its room, and zeros after it. -/
def loadProgram (m : Memory) (image : Image) : Memory :=
  ofFn fun a ↦ if a < programStart then m.read a else image.getD (a - programStart) 0

def store (m : Memory) (a : Int) : List UInt8 → Memory
  | [] => m
  | b :: bs => (m.write a b).store (a + 1) bs

end Memory

end Chip8
