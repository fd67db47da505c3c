import Chip8.Proofs.Machine.Loading
import Chip8.Proofs.Session.Burst
import Chip8.Terminal.Host

namespace Chip8

namespace Machine

structure Idle (m : Machine) : Prop where
  keypad_eq : m.keypad = .initial
  timers_eq : m.timers = .initial

theorem idle_new (dialect : Dialect) (random : RandomSource) : (new dialect random).Idle :=
  ⟨rfl, rfl⟩

theorem Idle.start {m : Machine} (h : m.Idle) (image : Image) : (m.start image).Idle := by
  constructor
  · simpa [Machine.start, restart] using h.keypad_eq
  · simp [Machine.start, restart]

end Machine

namespace Session

variable {s s' : Session}

theorem togglePause_machine (s : Session) : s.togglePause.machine = s.machine := by
  unfold togglePause
  split <;> rfl

theorem toggle_machine (s : Session) (flag : Nat) :
    ∃ dialect, (s.toggle flag).1.machine = { s.machine with dialect := dialect } := by
  simp only [toggle]
  split
  · exact ⟨_, rfl⟩
  · exact ⟨_, rfl⟩

theorem setKey_timers (s : Session) (name : String) (down : Bool) :
    (s.setKey name down).1.machine.timers = s.machine.timers := by
  unfold setKey
  split <;> rfl

theorem release_all_timers (holds : List Hold) (s : Session) :
    (holds.foldl (fun s h ↦ (s.release h.name).1) s).machine.timers = s.machine.timers := by
  induction holds generalizing s with
  | nil => rfl
  | cons h holds ih => exact (ih _).trans (s.setKey_timers h.name false)

theorem isDown_setKey (s : Session) (name : String) (down : Bool) (k : Key) :
    (s.setKey name down).1.machine.keypad.isDown k =
      if Keyboard.keyFor? name = some k then down else s.machine.keypad.isDown k := by
  unfold setKey
  cases hk : Keyboard.keyFor? name with
  | none => simp
  | some key => simp [Machine.setKey, Keypad.isDown_set]

theorem isDown_release_all (holds : List Hold) (s : Session) (k : Key) :
    (holds.foldl (fun s h ↦ (s.release h.name).1) s).machine.keypad.isDown k = true ↔
      s.machine.keypad.isDown k = true ∧ ∀ h ∈ holds, Keyboard.keyFor? h.name ≠ some k := by
  induction holds generalizing s with
  | nil => simp
  | cons h holds ih =>
    rw [List.foldl_cons, ih, release, isDown_setKey]
    by_cases hk : Keyboard.keyFor? h.name = some k <;> simp [hk]

theorem machine_of_load {path : String} {read : Except LoadError Image} {n : Nat}
    (h : s.load path read = (s', .ok n)) : ∃ image, s'.machine = s.freshMachine.start image := by
  obtain ⟨image, -, -, hm⟩ | ⟨e, -, hm⟩ := s.freshMachine.load_cases read
  · rw [load, hm] at h
    exact ⟨image, by rw [← (Prod.mk.inj h).1]⟩
  · rw [load, hm] at h
    exact nomatch (Prod.mk.inj h).2

/-- Whether or not the program is found again, the machine is a new one. -/
theorem idle_load_reset (s : Session) (path : String) (read : Except LoadError Image) :
    (s.reset.load path read).1.machine.Idle := by
  obtain ⟨image, -, -, hm⟩ | ⟨e, -, hm⟩ := s.reset.freshMachine.load_cases read
  · simp only [load, hm]
    exact (Machine.idle_new _ _).start image
  · simp only [load, hm]
    exact Machine.idle_new _ _

end Session

namespace Host

variable {h : Host} {name : String} {k : Key}

theorem draw_eq (h : Host) (must : Bool) : ∃ drawn, (h.draw must).1 = { h with drawn := drawn } := by
  unfold draw
  dsimp only
  split
  · exact ⟨h.drawn, rfl⟩
  · exact ⟨_, rfl⟩

def framed (h : Host) : Host :=
  { h with
    session := h.session.runFrame.1
    soundBefore := h.session.runFrame.1.machine.timers.sound }

theorem onFrame_eq (h : Host) : h.onFrame.1 = (h.framed.draw false).1 := rfl

theorem hold_of_none (hk : Keyboard.keyFor? name = none) : h.hold name = h := by
  simp [hold, Session.press, Session.setKey, hk]

theorem hold_of_some (hk : Keyboard.keyFor? name = some k) :
    h.hold name =
      { h with
        session := (h.session.press name).1
        held := h.held.filter (·.name ≠ name) ++ [⟨name, h.clock + 150⟩] } := by
  simp [hold, Session.press, Session.setKey, hk, holdTime]

theorem mem_held_onWait (h : Host) (ms : Int) (d : Hold) :
    d ∈ (h.onWait ms).held ↔ d ∈ h.held ∧ h.clock + ms < d.due := by
  simp [onWait, List.partition_eq_filter_filter]

theorem isDown_onWait (h : Host) (ms : Int) (k : Key) :
    (h.onWait ms).session.machine.keypad.isDown k = true ↔
      h.session.machine.keypad.isDown k = true ∧
        ∀ d ∈ h.held, d.due ≤ h.clock + ms → Keyboard.keyFor? d.name ≠ some k := by
  simp [onWait, List.partition_eq_filter_filter, Session.isDown_release_all]

theorem restart_eq (h : Host) :
    h.restart.1 =
      { h with
        session :=
          (h.releaseAll.session.reset.load h.rom (h.files.readProgram h.rom).2).1
        held := [] } := by
  rw [restart]
  dsimp only
  rw [show h.releaseAll.files = h.files from rfl, show h.releaseAll.rom = h.rom from rfl]
  generalize h.files.readProgram h.rom = p
  split
  · next hs =>
    rw [hs]
    rfl
  · next hs =>
    rw [hs]
    rfl

end Host

end Chip8
