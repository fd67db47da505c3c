import Chip8.Proofs.Session.CleanStart

namespace Chip8

def SessionEvent.isInput : SessionEvent → Bool
  | .press _ | .release _ | .toggle _ => true
  | _ => false

namespace Session

variable {s : Session} {e : SessionEvent} {es : List SessionEvent} {path t : String}

structure Playing (s : Session) (path : String) : Prop where
  running_eq : s.machine.running = true
  romPath_eq : s.romPath = some path
  paused_eq : s.paused = false
  halt_eq : s.halt = none

theorem Mode.exists_playing (h : s.Mode t) (hr : s.machine.running = true) (hp : s.paused = false)
    (hh : s.halt = none) : ∃ path, s.Playing path := by
  cases h with
  | idle hr₀ => simp [hr] at hr₀
  | playing _ hpath => exact ⟨_, hr, hpath, hp, hh⟩
  | paused _ hpath => exact ⟨_, hr, hpath, hp, hh⟩
  | halted _ hpath => exact ⟨_, hr, hpath, hp, hh⟩

theorem Playing.perform (h : s.Playing path) (he : e.isInput = true) :
    (s.perform e).1.Playing path := by
  obtain ⟨hr, hpath, hp, hh⟩ := h
  cases e with
  | press name | release name =>
    simp only [Session.perform, press, release, setKey]
    cases Keyboard.keyFor? name <;> exact ⟨hr, hpath, hp, hh⟩
  | toggle b =>
    refine ⟨?_, hpath, hp, hh⟩
    simp only [Session.perform, toggle]
    split <;> exact hr
  | _ => cases he

theorem Playing.run (h : s.Playing path) (hes : ∀ e ∈ es, e.isInput = true) :
    (s.run es).Playing path := by
  induction es generalizing s with
  | nil => exact h
  | cons e es ih =>
    obtain ⟨he, hes⟩ := List.forall_mem_cons.mp hes
    exact ih (h.perform he) hes

def held (s : Session) : Session := { s with paused := true, status := statusPaused }

theorem Playing.togglePause (h : s.Playing path) : s.togglePause = s.held := by
  simp [Session.togglePause, held, h.running_eq, h.romPath_eq, h.paused_eq, h.halt_eq]

theorem Playing.togglePause_held (h : s.Playing path) :
    s.held.togglePause = { s with status := statusRunning path } := by
  have ht : s.held.togglePause = { s.held with paused := false, status := statusRunning path } := by
    simp [Session.togglePause, held, h.running_eq, h.romPath_eq, h.halt_eq]
  rw [ht, held, ← h.paused_eq]

theorem runFrame_held (s : Session) : s.held.runFrame = (s.held, 0, []) := runFrame_of_idle rfl

theorem perform_held (s : Session) (he : e.isInput = true) :
    s.held.perform e = ((s.perform e).1.held, (s.perform e).2) := by
  cases e with
  | press name | release name =>
    simp only [perform, press, release, setKey]
    cases Keyboard.keyFor? name <;> rfl
  | toggle b => rfl
  | _ => cases he

theorem run_held (s : Session) (hes : ∀ e ∈ es, e = .frame ∨ e.isInput = true) :
    s.held.run es = (s.run (es.filter SessionEvent.isInput)).held := by
  induction es generalizing s with
  | nil => rfl
  | cons e es ih =>
    rw [List.forall_mem_cons] at hes
    obtain ⟨he, hes⟩ := hes
    cases he with
    | inl hf =>
      subst hf
      rw [run_cons, perform, runFrame_held, List.filter_cons_of_neg (by decide)]
      exact ih s hes
    | inr hi =>
      rw [run_cons, perform_held s hi, List.filter_cons_of_pos hi, run_cons]
      exact ih _ hes

/-- Between two switches of the pause no frame does anything, and after them the session is the one
that has seen the keys and the bits of the dialect without a pause, but for the status. The pause
is not told from the answers to what is done later. -/
theorem pause_unnoticed (cpuHz : Option Rat) (dialect : Dialect) (random : RandomSource)
    (es es' : List SessionEvent) (hes : ∀ e ∈ es', e = .frame ∨ e.isInput = true) :
    let s := (new cpuHz dialect random).run es
    s.machine.running = true → s.paused = false → s.halt = none →
      ∃ path, s.romPath = some path ∧
        let resumed := s.run (.togglePause :: es' ++ [.togglePause])
        let untouched := s.run (es'.filter SessionEvent.isInput)
        resumed = { untouched with status := statusRunning path } ∧
          (∀ as, as ++ [.frame] <+: es' →
            (s.run (.togglePause :: as)).runFrame = (s.run (.togglePause :: as), 0, [])) ∧
          ∀ es'', resumed.answers es'' = untouched.answers es'' ∧
            ∃ t, resumed.run es'' = { untouched.run es'' with status := t } ∧
              (t = statusRunning path ∨ t = (untouched.run es'').status) := by
  intro s hr hp hh
  obtain ⟨t, hm, -⟩ := Mode.run (s := new cpuHz dialect random) (.idle rfl rfl rfl rfl) es
  obtain ⟨path, hs⟩ := hm.exists_playing hr hp hh
  refine ⟨path, hs.romPath_eq, ?_⟩
  intro resumed untouched
  have hu : untouched.Playing path := hs.run fun e he ↦ (List.mem_filter.mp he).2
  have hres : resumed = { untouched with status := statusRunning path } := by
    calc resumed = (s.togglePause.run es').togglePause := run_append s (.togglePause :: es') _
      _ = (s.held.run es').togglePause := by rw [hs.togglePause]
      _ = untouched.held.togglePause := by rw [run_held s hes]
      _ = { untouched with status := statusRunning path } := hu.togglePause_held
  refine ⟨hres, ?_, ?_⟩
  · rintro as ⟨bs, rfl⟩
    have has : ∀ e ∈ as, e = .frame ∨ e.isInput = true := by
      intro e he
      exact hes e (List.mem_append_left _ (List.mem_append_left _ he))
    have hheld : s.run (.togglePause :: as) =
        (s.run (as.filter SessionEvent.isInput)).held := by
      rw [run_cons, perform, hs.togglePause, run_held s has]
    rw [hheld, runFrame_held]
  · intro es''
    rw [hres]
    exact untouched.run_status_or _ es''

/-- A timer that runs, part of a step left over and a random number used up, and under the pause
frames, a key that goes down and a bit of the dialect. -/
theorem dice_unaware_of_pause :
    let es : List SessionEvent :=
      [.load "dice" (.ok #[0x60, 0x20, 0xF0, 0x15, 0xC0, 0xFF, 0x12, 0x04]), .frame, .frame,
        .load "gone" (.error (.notFound "gone"))]
    let es' : List SessionEvent := [.frame, .press "q", .toggle .jumpsByX, .frame]
    let s := (new (some 100) ⟨1⟩ (.cycle [7, 9])).run es
    let resumed := s.run (.togglePause :: es' ++ [.togglePause])
    let untouched := s.run [.press "q", .toggle .jumpsByX]
    (0 < s.carry ∧ s.machine.timers.delay ≠ 0 ∧ s.machine.random.drawn = 1 ∧
        s.status = "ROM not found: gone") ∧
      resumed = { untouched with status := "Now running dice" } ∧
      (s.run [.togglePause, .frame, .press "q", .toggle .jumpsByX]).runFrame =
        (s.run [.togglePause, .frame, .press "q", .toggle .jumpsByX], 0, []) ∧
      resumed.answers [.frame, .frame] = untouched.answers [.frame, .frame] := by
  intro es es' s resumed untouched
  have hs : 0 < s.carry ∧ s.machine.timers.delay ≠ 0 ∧ s.machine.random.drawn = 1 ∧
      s.status = "ROM not found: gone" := by decide +kernel
  have hplay : s.machine.running = true ∧ s.paused = false ∧ s.halt = none ∧
      s.romPath = some "dice" := by decide +kernel
  obtain ⟨hr, hp, hh, hpath⟩ := hplay
  have hes : ∀ e ∈ es', e = .frame ∨ e.isInput = true := by
    simp [es', SessionEvent.isInput]
  obtain ⟨path, hpath', hres, hframe, hlater⟩ :=
    pause_unnoticed (some 100) ⟨1⟩ (.cycle [7, 9]) es es' hes hr hp hh
  obtain rfl : path = "dice" := Option.some.inj (hpath'.symm.trans hpath)
  exact ⟨hs, hres, hframe [.frame, .press "q", .toggle .jumpsByX] (List.prefix_refl es'),
    (hlater [.frame, .frame]).1⟩

end Session

end Chip8
