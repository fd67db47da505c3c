import Chip8.Dialect.Behaviour
import Chip8.Session

namespace Chip8

inductive SessionEvent
  | load (path : String) (read : Except LoadError Image)
  | reset
  | togglePause
  | toggle (b : Behaviour)
  | frame
  | press (name : String)
  | release (name : String)
  | setTracing (on : Bool)
  | stepMachine

namespace Session

inductive Answer
  | loaded (result : Except LoadError Nat)
  | toggled (on : Bool)
  | ran (executed : Nat) (lines : List String)
  | keyed (known : Bool)
  | stepped (o : Outcome) (lines : List String)
  | done

def perform (s : Session) : SessionEvent → Session × Answer
  | .load path read => let (s, result) := s.load path read; (s, .loaded result)
  | .reset => (s.reset, .done)
  | .togglePause => (s.togglePause, .done)
  | .toggle b => let (s, on) := s.toggle b.flag; (s, .toggled on)
  | .frame => let (s, executed, lines) := s.runFrame; (s, .ran executed lines)
  | .press name => let (s, known) := s.press name; (s, .keyed known)
  | .release name => let (s, known) := s.release name; (s, .keyed known)
  | .setTracing on => (s.setTracing on, .done)
  | .stepMachine => let (s, o, lines) := s.stepMachine; (s, .stepped o lines)

def run (s : Session) (es : List SessionEvent) : Session := es.foldl (fun s e ↦ (s.perform e).1) s

def answers (s : Session) : List SessionEvent → List Answer
  | [] => []
  | e :: es => (s.perform e).2 :: (s.perform e).1.answers es

@[simp] theorem run_nil (s : Session) : s.run [] = s := rfl

@[simp] theorem run_cons (s : Session) (e : SessionEvent) (es : List SessionEvent) :
    s.run (e :: es) = (s.perform e).1.run es := rfl

theorem run_append (s : Session) (es es' : List SessionEvent) :
    s.run (es ++ es') = (s.run es).run es' := List.foldl_append

theorem answers_append (s : Session) (es es' : List SessionEvent) :
    s.answers (es ++ es') = s.answers es ++ (s.run es).answers es' := by
  induction es generalizing s with
  | nil => rfl
  | cons e es ih => exact congrArg ((s.perform e).2 :: ·) (ih (s.perform e).1)

theorem run_of_perform {P : Session → Prop} (h : ∀ s e, P s → P (s.perform e).1) {s : Session}
    (hs : P s) (es : List SessionEvent) : P (s.run es) := by
  induction es generalizing s with
  | nil => exact hs
  | cons e es ih => exact ih (h s e hs)

theorem run_congr {R : Session → Session → Prop}
    (hR : ∀ s s' e, R s s' →
      (s.perform e).2 = (s'.perform e).2 ∧ R (s.perform e).1 (s'.perform e).1)
    {s s' : Session} (h : R s s') (es : List SessionEvent) :
    s.answers es = s'.answers es ∧ R (s.run es) (s'.run es) := by
  induction es generalizing s s' with
  | nil => exact ⟨rfl, h⟩
  | cons e es ih =>
    obtain ⟨ha, hs⟩ := hR s s' e h
    obtain ⟨has, hr⟩ := ih hs
    refine ⟨?_, hr⟩
    rw [answers, answers, ha, has]

end Session

end Chip8
