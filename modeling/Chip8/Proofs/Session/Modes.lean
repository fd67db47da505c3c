import Mathlib.Data.List.Induction
import Chip8.Proofs.Machine.Loading
import Chip8.Proofs.Session.Burst
import Chip8.Session.History

namespace Chip8.Session

variable {s s' : Session} {e : SessionEvent} {es : List SessionEvent} {o : Outcome} {t : String}

def started (s : Session) (path : String) (image : Image) : Session :=
  { s with
    machine := s.freshMachine.start image
    romPath := some path
    paused := false
    halt := none
    carry := 0
    status := statusRunning path }

theorem load_cases (s : Session) (path : String) (read : Except LoadError Image) :
    (∃ image, read = .ok image ∧ image.size ≤ Memory.programLimit ∧
        s.load path read = (s.started path image, .ok image.size)) ∨
      ∃ err, s.load path read = ({ s with status := err.description }, .error err) := by
  obtain ⟨image, rfl, hi, hm⟩ | ⟨err, -, hm⟩ := s.freshMachine.load_cases read
  · refine .inl ⟨image, rfl, hi, ?_⟩
    rw [load, hm]
    rfl
  · refine .inr ⟨err, ?_⟩
    rw [load, hm]

theorem isActive_iff :
    s.isActive = true ↔ s.paused = false ∧ s.halt = none ∧ s.machine.running = true := by
  simp [isActive, and_assoc]

inductive FrameTo (s : Session) : Session → Prop
  | idle (h : s.isActive = false) : FrameTo s s
  | full {m : Machine} {carry : Rat} (h : s.isActive = true) (hm : s.machine.Kept m) :
      FrameTo s { s with machine := m, carry := carry }
  | halt {m : Machine} {carry : Rat} {o : Outcome} (h : s.isActive = true) (hm : s.machine.Kept m)
      (ho : o ≠ .success) (hn : o ≠ .noProgram) :
      FrameTo s { s with machine := m, carry := carry, halt := some o, status := o.description }

theorem frameTo (s : Session) : s.FrameTo s.runFrame.1 := by
  unfold runFrame
  cases ha : s.isActive with
  | false => exact .idle ha
  | true =>
    have hk := burst_kept s.tracing s.budget.floor.toNat 0 [] s.machine
    simp only [↓reduceIte]
    cases hf : (burst s.tracing s.budget.floor.toNat 0 [] s.machine).fault with
    | none => exact .full ha (hk.trans ⟨rfl, rfl, rfl⟩)
    | some o =>
      obtain ⟨ho, hs⟩ := burst_fault hf
      have hr := hk.running_eq.trans (isActive_iff.mp ha).2.2
      have hn := (Machine.stepsTo _).ne_noProgram hr
      rw [hs] at hn
      exact .halt ha hk ho hn

inductive Mode (s : Session) : String → Prop
  | idle (hr : s.machine.running = false) (hpath : s.romPath = none) (hp : s.paused = false)
      (hh : s.halt = none) : Mode s statusIdle
  | playing {path : String} (hr : s.machine.running = true) (hpath : s.romPath = some path)
      (hp : s.paused = false) (hh : s.halt = none) : Mode s (statusRunning path)
  | paused {path : String} (hr : s.machine.running = true) (hpath : s.romPath = some path)
      (hp : s.paused = true) (hh : s.halt = none) : Mode s statusPaused
  | halted {path : String} {o : Outcome} (hr : s.machine.running = true)
      (hpath : s.romPath = some path) (hp : s.paused = false) (hh : s.halt = some o)
      (ho : o ≠ .success) (hn : o ≠ .noProgram) : Mode s o.description

theorem Mode.of_kept (h : s.Mode t) (hr : s'.machine.running = s.machine.running)
    (hpath : s'.romPath = s.romPath) (hp : s'.paused = s.paused) (hh : s'.halt = s.halt) :
    s'.Mode t := by
  cases h with
  | idle hr₀ hpath₀ hp₀ hh₀ =>
    exact .idle (hr.trans hr₀) (hpath.trans hpath₀) (hp.trans hp₀) (hh.trans hh₀)
  | playing hr₀ hpath₀ hp₀ hh₀ =>
    exact .playing (hr.trans hr₀) (hpath.trans hpath₀) (hp.trans hp₀) (hh.trans hh₀)
  | paused hr₀ hpath₀ hp₀ hh₀ =>
    exact .paused (hr.trans hr₀) (hpath.trans hpath₀) (hp.trans hp₀) (hh.trans hh₀)
  | halted hr₀ hpath₀ hp₀ hh₀ ho hn =>
    exact .halted (hr.trans hr₀) (hpath.trans hpath₀) (hp.trans hp₀) (hh.trans hh₀) ho hn

def Answer.load? : Answer → Option (Except LoadError Nat)
  | .loaded result => some result
  | _ => none

inductive Shows (s : Session) (t : String) : Session × Answer → Prop
  | text {s' : Session} {a : Answer} (hm : s'.Mode s'.status) : Shows s t (s', a)
  | same {s' : Session} {a : Answer} (hm : s'.Mode t) (hs : s'.status = s.status)
      (ha : a.load? = none) : Shows s t (s', a)
  | failure {s' : Session} {err : LoadError} (hm : s'.Mode t) (hs : s'.status = err.description) :
      Shows s t (s', .loaded (.error err))

theorem Mode.togglePause (h : s.Mode t) : s.Shows t (s.togglePause, .done) := by
  cases h with
  | idle hr hpath hp hh =>
    have hs : s.togglePause = s := by simp [Session.togglePause, hr]
    rw [hs]
    exact .same (.idle hr hpath hp hh) rfl rfl
  | @playing path hr hpath hp hh =>
    have hs : s.togglePause = { s with paused := true, status := statusPaused } := by
      simp [Session.togglePause, hr, hpath, hp, hh]
    rw [hs]
    exact .text (.paused hr hpath rfl hh)
  | @paused path hr hpath hp hh =>
    have hs : s.togglePause = { s with paused := false, status := statusRunning path } := by
      simp [Session.togglePause, hr, hpath, hp, hh]
    rw [hs]
    exact .text (.playing hr hpath rfl hh)
  | halted hr hpath hp hh ho hn =>
    have hs : s.togglePause = s := by simp [Session.togglePause, hr, hh]
    rw [hs]
    exact .same (.halted hr hpath hp hh ho hn) rfl rfl

theorem Mode.frame (h : s.Mode t) (executed : Nat) (lines : List String) :
    s.Shows t (s.runFrame.1, .ran executed lines) := by
  have hf := s.frameTo
  generalize s.runFrame.1 = s' at hf ⊢
  cases hf with
  | idle => exact .same h rfl rfl
  | full ha hm => exact .same (h.of_kept hm.running_eq rfl rfl rfl) rfl rfl
  | @halt m carry o ha hm ho hn =>
    obtain ⟨hp, -, hr⟩ := isActive_iff.mp ha
    cases h with
    | idle hr₀ => simp [hr] at hr₀
    | playing _ hpath => exact .text (.halted (hm.running_eq.trans hr) hpath hp rfl ho hn)
    | paused _ hpath => exact .text (.halted (hm.running_eq.trans hr) hpath hp rfl ho hn)
    | halted _ hpath => exact .text (.halted (hm.running_eq.trans hr) hpath hp rfl ho hn)

theorem Mode.setKey (h : s.Mode t) (name : String) (down : Bool) :
    s.Shows t ((s.setKey name down).1, .keyed (s.setKey name down).2) := by
  unfold Session.setKey
  cases Keyboard.keyFor? name with
  | none => exact .same h rfl rfl
  | some key => exact .same (h.of_kept rfl rfl rfl rfl) rfl rfl

theorem Mode.perform (h : s.Mode t) (e : SessionEvent) : s.Shows t (s.perform e) := by
  cases e with
  | load path read =>
    obtain ⟨image, -, -, hl⟩ | ⟨err, hl⟩ := s.load_cases path read
    · rw [Session.perform, hl]
      exact .text (.playing rfl rfl rfl rfl)
    · rw [Session.perform, hl]
      exact .failure (h.of_kept rfl rfl rfl rfl) rfl
  | reset => exact .text (.idle rfl rfl rfl rfl)
  | togglePause => exact h.togglePause
  | toggle b =>
    have hr : (s.toggle b.flag).1.machine.running = s.machine.running := by
      unfold toggle
      dsimp only
      split <;> rfl
    exact .same (h.of_kept hr rfl rfl rfl) rfl rfl
  | frame => exact h.frame _ _
  | press name => exact h.setKey name true
  | release name => exact h.setKey name false
  | setTracing on => exact .same (h.of_kept rfl rfl rfl rfl) rfl rfl
  | stepMachine =>
    exact .same (h.of_kept s.machine.stepsTo.kept.running_eq rfl rfl rfl) rfl rfl

def caption (s : Session) : String :=
  match s.romPath with
  | none => "Please select a ROM file."
  | some path =>
    match s.halt with
    | some o => o.description
    | none => if s.paused then "Paused." else "Now running " ++ path

theorem Mode.caption_eq (h : s.Mode t) : s.caption = t := by
  cases h with
  | idle _ hpath _ _ => simp [caption, hpath, statusIdle]
  | playing _ hpath hp hh => simp [caption, hpath, hp, hh, statusRunning]
  | paused _ hpath hp hh => simp [caption, hpath, hp, hh, statusPaused]
  | halted _ hpath _ hh _ _ => simp [caption, hpath, hh]

def lastLoad? (as : List Answer) : Option (Except LoadError Nat) :=
  (as.filterMap Answer.load?).getLast?

theorem lastLoad?_concat (as : List Answer) (a : Answer) :
    lastLoad? (as ++ [a]) = a.load?.or (lastLoad? as) := by
  rw [lastLoad?, lastLoad?, List.filterMap_append, List.getLast?_append]
  cases a <;> rfl

/-- The status is the text of the mode, or tells why the last load failed. -/
theorem Mode.run (h : s.Mode s.status) (es : List SessionEvent) :
    ∃ t, (s.run es).Mode t ∧
      ((s.run es).status = t ∨ ∃ err, lastLoad? (s.answers es) = some (.error err) ∧
        (s.run es).status = err.description) := by
  induction es using List.reverseRecOn with
  | nil => exact ⟨s.status, h, .inl rfl⟩
  | append_singleton es e ih =>
    obtain ⟨t, hm, ht⟩ := ih
    have hs := hm.perform e
    rw [run_append, run_cons, run_nil, answers_append, answers, answers, lastLoad?_concat]
    generalize (s.run es).perform e = p at hs ⊢
    cases hs with
    | text hm' => exact ⟨_, hm', .inl rfl⟩
    | same hm' hs' ha =>
      refine ⟨t, hm', ?_⟩
      rw [hs', ha]
      exact ht
    | failure hm' hs' => exact ⟨t, hm', .inr ⟨_, rfl, hs'⟩⟩

theorem toggle_dialect (b : Behaviour) (h : s.dialect = s.machine.dialect) :
    (s.toggle b.flag).1.dialect = (s.toggle b.flag).1.machine.dialect := by
  have ht := s.dialect.toggle_eq b.bit
  change s.dialect.toggle b.flag = if (s.dialect.toggle b.flag).has b.flag then
    s.dialect.set b.flag else s.dialect.clear b.flag at ht
  simp only [toggle]
  split at ht
  · next hon =>
    rw [if_pos hon, ht, h]
    rfl
  · next hoff =>
    rw [if_neg hoff, ht, h]
    rfl

theorem perform_dialect (h : s.dialect = s.machine.dialect) (e : SessionEvent) :
    (s.perform e).1.dialect = (s.perform e).1.machine.dialect := by
  cases e with
  | load path read =>
    obtain ⟨image, -, -, hl⟩ | ⟨err, hl⟩ := s.load_cases path read
    · rw [perform, hl]
      simp [started, freshMachine, Machine.start, Machine.restart, Machine.new]
    · rw [perform, hl]
      exact h
  | reset => rfl
  | togglePause =>
    rw [perform, togglePause]
    split <;> exact h
  | toggle b => exact toggle_dialect b h
  | frame =>
    have hf := s.frameTo
    change s.runFrame.1.dialect = s.runFrame.1.machine.dialect
    generalize s.runFrame.1 = s' at hf ⊢
    cases hf with
    | idle => exact h
    | full _ hm => exact h.trans hm.dialect_eq.symm
    | halt _ hm => exact h.trans hm.dialect_eq.symm
  | press name | release name =>
    simp only [perform, press, release, setKey]
    split <;> exact h
  | setTracing on => exact h
  | stepMachine => exact h.trans s.machine.stepsTo.kept.dialect_eq.symm

theorem togglePause_of_halt (h : s.halt = some o) : s.togglePause = s := by
  rw [togglePause, h]
  split
  · next hn _ => cases hn
  · rfl

theorem halt_perform (h : s.halt = some o) (hr : e ≠ .reset)
    (hl : ∀ n, (s.perform e).2 ≠ .loaded (.ok n)) : (s.perform e).1.halt = some o := by
  cases e with
  | load path read =>
    obtain ⟨image, -, -, hs⟩ | ⟨err, hs⟩ := s.load_cases path read
    · exact absurd (by rw [perform, hs]) (hl image.size)
    · rw [perform, hs]
      exact h
  | reset => exact absurd rfl hr
  | togglePause =>
    rw [perform, togglePause_of_halt h]
    exact h
  | frame =>
    rw [perform, runFrame_of_halt h]
    exact h
  | press name | release name =>
    simp only [perform, press, release, setKey]
    split <;> exact h
  | _ => exact h

theorem halt_run (h : s.halt = some o) (hr : .reset ∉ es)
    (hl : ∀ n, .loaded (.ok n) ∉ s.answers es) : (s.run es).halt = some o := by
  induction es generalizing s with
  | nil => exact h
  | cons e es ih =>
    rw [List.mem_cons, not_or] at hr
    apply ih
    · apply halt_perform h (Ne.symm hr.1)
      intro n he
      exact hl n (List.mem_cons.mpr (.inl he.symm))
    · exact hr.2
    · intro n hn
      exact hl n (List.mem_cons_of_mem _ hn)

structure Consistent (s : Session) : Prop where
  dialect_eq : s.dialect = s.machine.dialect
  romPath_eq_none_iff : s.romPath = none ↔ s.machine.running = false
  running_of_paused : s.paused = true → s.machine.running = true
  running_of_halt : ∀ o, s.halt = some o → s.machine.running = true
  not_paused_and_halt : ¬(s.paused = true ∧ s.halt ≠ none)
  halt_is_failure : ∀ o, s.halt = some o → o ≠ .success ∧ o ≠ .noProgram

theorem Mode.consistent (h : s.Mode t) (hd : s.dialect = s.machine.dialect) : s.Consistent := by
  cases h with
  | idle hr hpath hp hh => constructor <;> simp [hd, hr, hpath, hp, hh]
  | playing hr hpath hp hh => constructor <;> simp [hd, hr, hpath, hp, hh]
  | paused hr hpath hp hh => constructor <;> simp [hd, hr, hpath, hp, hh]
  | halted hr hpath hp hh ho hn => constructor <;> simp [hd, hr, hpath, hp, hh, ho, hn]

/-- After any history the parts of a session fit together, the status is the text of its mode or
tells why the last load failed, and a session that has halted stays so, doing nothing in its frames,
until it is reset or a program is loaded. -/
theorem consistent_after_run (cpuHz : Option Rat) (dialect : Dialect) (random : RandomSource)
    (es : List SessionEvent) :
    let s := (new cpuHz dialect random).run es
    s.Consistent ∧
      (s.status = s.caption ∨
        ∃ err, lastLoad? ((new cpuHz dialect random).answers es) = some (.error err) ∧
          s.status = err.description) ∧
      ∀ o, s.halt = some o → ∀ es', .reset ∉ es' → (∀ n, .loaded (.ok n) ∉ s.answers es') →
        (s.run es').halt = some o ∧ (s.run es').runFrame = (s.run es', 0, []) := by
  intro s
  have h₀ : (new cpuHz dialect random).Mode statusIdle := .idle rfl rfl rfl rfl
  have hd : s.dialect = s.machine.dialect :=
    run_of_perform (P := fun s ↦ s.dialect = s.machine.dialect)
      (fun _ e h ↦ perform_dialect h e) rfl es
  obtain ⟨t, hm, ht⟩ := Mode.run h₀ es
  refine ⟨hm.consistent hd, ?_, ?_⟩
  · rw [hm.caption_eq]
    exact ht
  · intro o ho es' hr hl
    have hh := halt_run ho hr hl
    exact ⟨hh, runFrame_of_halt hh⟩

/-- A program that is no instruction, and another one that cannot be found. -/
theorem halted_through_failed_load :
    let es : List SessionEvent :=
      [.load "rom" (.ok #[0x00, 0x00]), .frame, .toggle .jumpsByX,
        .load "gone" (.error (.notFound "gone"))]
    let es' : List SessionEvent := [.togglePause, .press "q", .frame]
    let s := (new none ⟨1⟩ (.cycle [])).run es
    s.Consistent ∧ s.status = "ROM not found: gone" ∧ s.caption = "Invalid opcode 0x0000 at 0x200" ∧
      s.halt = some (.invalidWord 0x0000 0x200) ∧
      (s.run es').halt = some (.invalidWord 0x0000 0x200) ∧
      (s.run es').runFrame = (s.run es', 0, []) := by
  intro es es' s
  obtain ⟨hc, -, hrun⟩ := consistent_after_run none ⟨1⟩ (.cycle []) es
  have ht : s.status = "ROM not found: gone" := by decide +kernel
  have hx : s.caption = "Invalid opcode 0x0000 at 0x200" := by decide +kernel
  have hh : s.halt = some (.invalidWord 0x0000 0x200) := by decide +kernel
  have hr : .reset ∉ es' := by simp [es']
  have hl : ∀ n, .loaded (.ok n) ∉ s.answers es' := by
    intro n
    simp [es', answers, perform]
  obtain ⟨hh', hf⟩ := hrun _ hh es' hr hl
  exact ⟨hc, ht, hx, hh, hh', hf⟩

end Chip8.Session
