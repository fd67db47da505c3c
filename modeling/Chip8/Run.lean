import Chip8.Machine.Step

namespace Chip8.Run

inductive Stop
  | fault (o : Outcome)
  | loop
  | timeout
  deriving DecidableEq, Repr

structure Report where
  steps : Nat
  stop : Stop
  machine : Machine

def tickAfter (every steps : Nat) (m : Machine) : Machine :=
  if 0 < every ∧ steps % every = 0 then m.tick else m

def continueFrom (every : Nat) : (budget steps : Nat) → Machine → Report
  | 0, steps, m => ⟨steps, .timeout, m⟩
  | budget + 1, steps, m =>
    if m.atSelfJump then ⟨steps, .loop, m⟩
    else
      match m.step with
      | (next, .success) =>
        continueFrom every budget (steps + 1) (tickAfter every (steps + 1) next)
      | (next, o) => ⟨steps, .fault o, next⟩

def program (dialect : Dialect) (random : RandomSource) (every budget : Nat) (image : Image) :
    Except LoadError Report :=
  match (Machine.new dialect random).load (.ok image) with
  | (_, .error e) => .error e
  | (m, .ok _) => .ok (continueFrom every budget 0 m)

end Chip8.Run
