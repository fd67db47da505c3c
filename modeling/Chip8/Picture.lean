import Chip8.Screen

namespace Chip8.Picture

def glyph (top bottom : Bool) : Char :=
  match top, bottom with
  | true, true => '█'
  | true, false => '▀'
  | false, true => '▄'
  | false, false => ' '

def line (f : Frame) (k : Nat) : String :=
  String.ofList ((List.range Frame.width).map fun x ↦
    glyph (f.pixel x (2 * k)) (f.pixel x (2 * k + 1)))

def lines (f : Frame) : List String := (List.range (Frame.height / 2)).map (line f)

end Chip8.Picture
