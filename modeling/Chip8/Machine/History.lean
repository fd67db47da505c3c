import Chip8.Machine.Step

namespace Chip8

inductive Event
  | load (read : Except LoadError Image)
  | step
  | tick
  | setKey (number : Rat) (down : Bool)
  | setFlag (flag : Nat)
  | clearFlag (flag : Nat)
  | reset (dialect : Option Dialect)
  | poke (address value : Int)

def Event.isOrdinary : Event → Bool
  | .step | .tick | .setKey _ _ => true
  | _ => false

namespace Machine

def apply (m : Machine) : Event → Machine
  | .load read => (m.load read).1
  | .step => m.step.1
  | .tick => m.tick
  | .setKey number down => m.setKeyNumber number down
  | .setFlag flag => m.setFlag flag
  | .clearFlag flag => m.clearFlag flag
  | .reset dialect => m.reset (dialect.getD m.dialect)
  | .poke address value => m.poke address value

def run (m : Machine) (es : List Event) : Machine := es.foldl apply m

@[simp] theorem run_nil (m : Machine) : m.run [] = m := rfl

@[simp] theorem run_cons (m : Machine) (e : Event) (es : List Event) :
    m.run (e :: es) = (m.apply e).run es := rfl

theorem run_append (m : Machine) (es es' : List Event) :
    m.run (es ++ es') = (m.run es).run es' := List.foldl_append

/-- What every event preserves, every history preserves. -/
theorem run_of_apply {P : Machine → Prop} (h : ∀ m e, P m → P (m.apply e)) {m : Machine} (hm : P m)
    (es : List Event) : P (m.run es) := by
  induction es generalizing m with
  | nil => exact hm
  | cons e es ih => exact ih (h m e hm)

end Machine

end Chip8
