import Chip8.Screen

namespace Chip8

structure Colour where
  red : Int
  green : Int
  blue : Int
  deriving DecidableEq, Repr

namespace Colour

def white : Colour := ⟨255, 255, 255⟩

def black : Colour := ⟨0, 0, 0⟩

end Colour

/-- Four bytes a pixel, row by row: red, green, blue and opacity. -/
structure Raster where
  width : Nat
  height : Nat
  data : ByteArray

namespace Raster

def bytes (r : Raster) : Array UInt8 := r.data.data

/-- Where the four bytes of a pixel begin. Offsets have 32 bits, the highest of them a sign. -/
@[inline] def offset (index : Nat) : UInt32 := UInt32.ofNat index <<< 2

@[inline] def store (data : ByteArray) (place : Nat) (b : UInt8) : ByteArray :=
  if h : place < data.size then data.set place b h else data

@[inline] def storePixel (data : ByteArray) (o : UInt32) (red green blue : UInt8) : ByteArray :=
  if o < 0x80000000 then
    let place := o.toNat
    store (store (store (store data place red) (place + 1) green) (place + 2) blue) (place + 3) 255
  else data

def fillSquare (scale : Nat) (x y : Nat) (c : Colour) (data : ByteArray) : ByteArray :=
  let red := UInt8.ofInt c.red
  let green := UInt8.ofInt c.green
  let blue := UInt8.ofInt c.blue
  scale.fold (fun dy _ data ↦
    let start := (y * scale + dy) * (Frame.width * scale) + x * scale
    scale.fold (fun dx _ data ↦ storePixel data (offset (start + dx)) red green blue) data) data

def blank (width height : Nat) : ByteArray :=
  let row := Nat.repeat (·.push 0) (4 * width) ByteArray.empty
  Nat.repeat (· ++ row) height (ByteArray.emptyWithCapacity (4 * width * height))

def ofFrame (f : Frame) (scale : Nat) (on off : Colour) : Raster :=
  let width := Frame.width * scale
  let height := Frame.height * scale
  { width := width
    height := height
    data := Frame.height.fold (fun y _ data ↦
      Frame.width.fold (fun x _ data ↦
        fillSquare scale x y (if f.pixel x y then on else off) data) data)
      (blank width height) }

def squareSide (scale : Rat) : Nat := max 1 scale.floor.toNat

def byte (data : ByteArray) (place : Nat) : UInt8 :=
  if h : place < data.size then data.get place h else 0

def pixel (r : Raster) (x y : Nat) : List UInt8 :=
  (List.range 4).map fun k ↦ byte r.data (4 * (y * r.width + x) + k)

end Raster

end Chip8
