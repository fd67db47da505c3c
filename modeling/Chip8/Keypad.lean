namespace Chip8

abbrev Key := Fin 16

def Key.ofNumber? (q : Rat) : Option Key :=
  if h : q.den = 1 ∧ 0 ≤ q.num ∧ q.num < 16 then some ⟨q.num.toNat, by omega⟩ else none

structure Keypad where
  latches : Vector Bool 16
  deriving DecidableEq

namespace Keypad

def initial : Keypad := ⟨Vector.replicate 16 false⟩

def isDown (k : Keypad) (key : Key) : Bool := k.latches[key]

def set (k : Keypad) (key : Key) (down : Bool) : Keypad := ⟨k.latches.set key down⟩

theorem isDown_set (k : Keypad) (key other : Key) (down : Bool) :
    (k.set key down).isDown other = if key = other then down else k.isDown other := by
  simp only [isDown, set, Fin.getElem_fin, Vector.getElem_set, Fin.val_inj]

def setNumber (k : Keypad) (q : Rat) (down : Bool) : Keypad :=
  match Key.ofNumber? q with
  | some key => k.set key down
  | none => k

def isDownNumber (k : Keypad) (q : Rat) : Bool :=
  match Key.ofNumber? q with
  | some key => k.isDown key
  | none => false

def down (k : Keypad) : List Key := (List.finRange 16).filter k.isDown

def lowest? (k : Keypad) : Option Key := (List.finRange 16).find? k.isDown

end Keypad

end Chip8
