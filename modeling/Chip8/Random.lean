namespace Chip8

/-- The numbers may be any integers; an instruction takes the bits it needs. -/
structure RandomSource where
  value : Nat → Int
  drawn : Nat

namespace RandomSource

def next (r : RandomSource) : Int × RandomSource :=
  (r.value r.drawn, { r with drawn := r.drawn + 1 })

def cycle (ns : List Int) : RandomSource := ⟨fun k ↦ ns.getD (k % ns.length) 0, 0⟩

def byteOfFraction (q : Rat) : Int := (q * 256).floor % 256

def ofFractions (qs : List Rat) : RandomSource := cycle (qs.map byteOfFraction)

end RandomSource

end Chip8
