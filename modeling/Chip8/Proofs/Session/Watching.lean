import Chip8.Proofs.Session.Tracing
import Chip8.Session.Watched

namespace Chip8

namespace WatchedEvent

def isListen : WatchedEvent → Bool
  | .listen _ => true
  | _ => false

def plain : WatchedEvent → SessionEvent
  | .load path read => .load path read
  | .reset => .reset
  | .togglePause => .togglePause
  | .toggle b => .toggle b
  | .frame => .frame
  | .press name => .press name
  | .release name => .release name
  | .listen listener => .setTracing listener.isSome

theorem plain_ne_setTracing {e : WatchedEvent} (he : e.isListen = false) (on : Bool) :
    e.plain ≠ .setTracing on := by
  cases e with
  | listen listener => cases he
  | _ => exact nofun

end WatchedEvent

namespace WatchedSession

variable {w : WatchedSession} {s : Session} {e : WatchedEvent} {n : Nat} {m m' : Machine}

def told (w : WatchedSession) (lines : List String) : List Call :=
  match w.listener with
  | none => []
  | some l => lines.map fun line ↦ ⟨l, line⟩

theorem told_nil (w : WatchedSession) : w.told [] = [] := by
  unfold told
  cases w.listener <;> rfl

theorem told_append (w : WatchedSession) (lines lines' : List String) :
    w.told (lines ++ lines') = w.told lines ++ w.told lines' := by
  unfold told
  cases w.listener with
  | none => rfl
  | some l => exact List.map_append

theorem told_tracing (w : WatchedSession) (lines : List String) :
    w.told (if w.session.tracing then lines else []) = w.told lines := by
  unfold told session
  cases w.listener <;> rfl

@[simp] theorem setCurrent_machine (w : WatchedSession) : w.setCurrent w.machine = w := by
  simp [setCurrent, setMachine, machine]

@[simp] theorem setCurrent_setCurrent (w : WatchedSession) (m m' : Machine) :
    (w.setCurrent m).setCurrent m' = w.setCurrent m' := by
  simp [setCurrent, setMachine]

@[simp] theorem machine_setCurrent (w : WatchedSession) (m : Machine) :
    (w.setCurrent m).machine = m := by
  simp [setCurrent, setMachine, machine]

theorem told_setCurrent (w : WatchedSession) (m : Machine) : (w.setCurrent m).told = w.told := rfl

theorem session_put (h : s.tracing = w.session.tracing) : (w.put s).session = s := by
  have ht : w.listener.isSome = s.tracing := h.symm
  simp [session, put, setCurrent, setMachine, machine, ht]

/-- The hook of the current machine shows its own registers to the listener of the session, and the
next machine gets a number that the current one does not have. -/
structure Wired (w : WatchedSession) : Prop where
  hook_eq : (w.machines w.current).hook = w.listener.map fun l ↦ ⟨w.current, l⟩
  current_lt : w.current < w.made

theorem wired_new (cpuHz : Option Rat) (dialect : Dialect) (random : RandomSource) :
    (new cpuHz dialect random).Wired := ⟨rfl, Nat.zero_lt_one⟩

theorem Wired.setCurrent (h : w.Wired) (m : Machine) : (w.setCurrent m).Wired :=
  ⟨by simpa [WatchedSession.setCurrent, setMachine] using h.hook_eq, h.current_lt⟩

theorem Wired.put (h : w.Wired) (s : Session) : (w.put s).Wired :=
  ⟨(h.setCurrent s.machine).hook_eq, h.current_lt⟩

theorem Wired.listen (h : w.Wired) (listener : Option Nat) : (w.listen listener).Wired :=
  ⟨by simp [WatchedSession.listen], h.current_lt⟩

theorem wired_reset (w : WatchedSession) : w.reset.Wired :=
  ⟨by simp [reset, make], Nat.lt_succ_self _⟩

theorem session_reset (w : WatchedSession) : w.reset.session = w.session.reset := by
  simp [session, machine, reset, make, Session.reset, Session.freshMachine]

theorem session_listen (w : WatchedSession) (listener : Option Nat) :
    (w.listen listener).session = w.session.setTracing listener.isSome := by
  simp [session, machine, listen, Session.setTracing]

theorem Wired.call_eq (h : w.Wired) (word : UInt16) :
    w.call w.machine.pc word = w.told [w.machine.lineBefore word] := by
  rw [call, told, h.hook_eq, ← w.machine.line_snapshot word]
  cases w.listener <;> rfl

theorem Wired.step_eq (h : w.Wired) :
    w.step = (w.setCurrent w.machine.step.1, w.machine.step.2,
      w.told w.machine.traceLine?.toList) := by
  have hm := w.machine.stepsTo
  generalize w.machine.step.1 = m', w.machine.step.2 = o at hm
  cases hm with
  | idle hr =>
    have ht : w.machine.traceLine? = none := by simp [Machine.traceLine?, Machine.upcoming?, hr]
    simp [step, hr, ht, told_nil]
  | noWord hr hw =>
    have ht := Machine.traceLine?_of_noWord hw
    simp [step, hr, hw, ht, told_nil]
  | noInstruction hr hw hi =>
    have ht := Machine.traceLine?_of_fetch? hr hw
    simp [step, hr, hw, hi, ht, h.call_eq]
  | fault hr hw hi ho =>
    have ht := Machine.traceLine?_of_fetch? hr hw
    simp [step, hr, hw, hi, ho, ht, h.call_eq]
  | execute hr hw hi ho =>
    have ht := Machine.traceLine?_of_fetch? hr hw
    simp [step, hr, hw, hi, ho, ht, h.call_eq]

theorem Wired.burst_eq (h : w.Wired) (budget : Nat) :
    burst budget w =
      ⟨w.setCurrent (Session.traced budget w.machine).machine,
        (Session.traced budget w.machine).executed, (Session.traced budget w.machine).fault,
        w.told (Session.traced budget w.machine).lines⟩ := by
  induction budget generalizing w with
  | zero => simp [burst, Session.traced, Session.burst, told_nil]
  | succ budget ih =>
    have hstep := h.step_eq
    by_cases ho : w.machine.step.2 = .success
    · have hs : w.machine.step = (w.machine.step.1, .success) := Prod.ext rfl ho
      have hnext := ih (h.setCurrent w.machine.step.1)
      rw [machine_setCurrent, setCurrent_setCurrent, told_setCurrent] at hnext
      rw [ho] at hstep
      simp only [burst, hstep, hnext, Session.traced_of_success budget hs, told_append]
    · have hs := Machine.step_of_ne_success ho
      rw [congrArg Prod.fst hs, setCurrent_machine] at hstep
      rw [Session.traced_of_fault budget hs ho, setCurrent_machine]
      generalize w.machine.step.2 = o at ho hstep ⊢
      cases o with
      | success => exact absurd rfl ho
      | _ => simp only [burst, hstep]

theorem put_session (w : WatchedSession) : w.put w.session = w := by
  have hm : w.setCurrent w.session.machine = w := w.setCurrent_machine
  rw [put, hm]
  rfl

theorem Wired.runFrame_eq (h : w.Wired) :
    w.runFrame =
      (w.put w.session.runFrame.1, w.session.runFrame.2.1, w.told w.session.runFrame.2.2) := by
  have hc : Wired { w with carry := Binary64.sub w.session.budget w.session.budget.floor } :=
    ⟨h.hook_eq, h.current_lt⟩
  have hm : machine { w with carry := Binary64.sub w.session.budget w.session.budget.floor } =
      w.session.machine := rfl
  simp only [runFrame, Session.runFrame_eq, hc.burst_eq, hm]
  cases w.session.isActive with
  | false => simp only [Bool.false_eq_true, ↓reduceIte, put_session, told_nil]
  | true =>
    generalize Session.traced w.session.budget.floor.toNat w.session.machine = b
    simp only [↓reduceIte]
    cases b.fault with
    | none =>
      simp only [machine_setCurrent, setCurrent_setCurrent, told_tracing]
      rfl
    | some o =>
      simp only [told_tracing]
      rfl

theorem make_machine (w : WatchedSession) :
    (w.make.machines w.made).machine = w.session.freshMachine := by
  simp [make]

theorem Wired.load_eq (h : w.Wired) (path : String) (read : Except LoadError Image) :
    (w.load path read).1.Wired ∧
      (w.load path read).1.session = (w.session.load path read).1 ∧
      (w.load path read).2 = (w.session.load path read).2 := by
  -- The new machine has a number of its own, so that the current one is not written over.
  have hne : w.current ≠ w.made := Nat.ne_of_lt h.current_lt
  rw [load, Session.load, make_machine]
  obtain ⟨m, err | n⟩ := w.session.freshMachine.load read
  · refine ⟨⟨?_, Nat.lt_succ_of_lt h.current_lt⟩, ?_, rfl⟩
    · simpa [setMachine, make, hne] using h.hook_eq
    · simp [session, machine, setMachine, make, hne]
  · refine ⟨⟨?_, Nat.lt_succ_self _⟩, ?_, rfl⟩
    · simp [setMachine, make]
    · simp [session, machine, setMachine, make]

structure Performs (w : WatchedSession) (e : WatchedEvent) : Prop where
  wired : (w.perform e).1.Wired
  session_eq : (w.perform e).1.session = (w.session.perform e.plain).1
  answer_eq : (w.perform e).2.1 =
    if e.isListen then none else some (w.session.perform e.plain).2.unlined
  calls_eq : (w.perform e).2.2 = w.told (w.session.perform e.plain).2.lines

theorem Wired.onSession (h : w.Wired) {e : SessionEvent} (he : ∀ on, e ≠ .setTracing on) :
    (w.onSession e).1.Wired ∧ (w.onSession e).1.session = (w.session.perform e).1 :=
  ⟨h.put _, session_put (w.session.perform_tracing he)⟩

theorem Wired.performs (h : w.Wired) (e : WatchedEvent) : w.Performs e := by
  cases e with
  | load path read =>
    obtain ⟨hw, hs, ha⟩ := h.load_eq path read
    exact ⟨hw, hs, congrArg (fun a ↦ some (Session.Answer.loaded a)) ha, w.told_nil.symm⟩
  | reset => exact ⟨w.wired_reset, w.session_reset, rfl, w.told_nil.symm⟩
  | togglePause =>
    obtain ⟨hw, hs⟩ := h.onSession (e := .togglePause) nofun
    exact ⟨hw, hs, rfl, w.told_nil.symm⟩
  | toggle b =>
    obtain ⟨hw, hs⟩ := h.onSession (e := .toggle b) nofun
    exact ⟨hw, hs, rfl, w.told_nil.symm⟩
  | frame =>
    have hf := h.runFrame_eq
    have ht : w.session.runFrame.1.tracing = w.session.tracing :=
      w.session.perform_tracing (e := .frame) nofun
    refine ⟨?_, ?_, ?_, ?_⟩
    · simp only [perform, hf]
      exact h.put _
    · simp only [perform, hf]
      exact session_put ht
    · simp only [perform, hf]
      rfl
    · simp only [perform, hf]
      rfl
  | press name =>
    obtain ⟨hw, hs⟩ := h.onSession (e := .press name) nofun
    exact ⟨hw, hs, rfl, w.told_nil.symm⟩
  | release name =>
    obtain ⟨hw, hs⟩ := h.onSession (e := .release name) nofun
    exact ⟨hw, hs, rfl, w.told_nil.symm⟩
  | listen listener =>
    exact ⟨h.listen listener, w.session_listen listener, rfl, w.told_nil.symm⟩

theorem Wired.run (h : w.Wired) (es : List WatchedEvent) :
    (w.run es).Wired ∧ (w.run es).session = w.session.run (es.map WatchedEvent.plain) := by
  induction es generalizing w with
  | nil => exact ⟨h, rfl⟩
  | cons e es ih =>
    have he := h.performs e
    rw [List.map_cons, Session.run_cons, ← he.session_eq]
    exact ih he.wired

def unwatched (w : WatchedSession) : WatchedSession :=
  { w with machines := HookedMachine.unhooked ∘ w.machines, listener := none }

theorem Wired.unwatched (h : w.Wired) : w.unwatched.Wired := ⟨rfl, h.current_lt⟩

theorem unwatched_setMachine (w : WatchedSession) (n : Nat) (m : Machine) :
    (w.setMachine n m).unwatched = w.unwatched.setMachine n m := by
  simp only [WatchedSession.unwatched, setMachine, Function.comp_update]
  rfl

theorem unwatched_put (w : WatchedSession) (s : Session) :
    (w.put s).unwatched = w.unwatched.put s := by
  have hm := congrArg machines (w.unwatched_setMachine w.current s.machine)
  apply WatchedSession.ext
  case machines => exact hm
  all_goals rfl

theorem unwatched_make (w : WatchedSession) : w.make.unwatched = w.unwatched.make := by
  simp only [WatchedSession.unwatched, make, Function.comp_update]
  rfl

theorem unwatched_listen (w : WatchedSession) (listener : Option Nat) :
    (w.listen listener).unwatched = w.unwatched := by
  simp only [WatchedSession.unwatched, WatchedSession.listen, Function.comp_update, mk.injEq,
    and_true]
  exact Function.update_eq_self _ _

theorem unwatched_reset (w : WatchedSession) : w.reset.unwatched = w.unwatched.reset := by
  have hm := congrArg machines w.unwatched_make
  apply WatchedSession.ext
  case machines => exact hm
  all_goals rfl

theorem unwatched_load (w : WatchedSession) (path : String) (read : Except LoadError Image) :
    (w.load path read).1.unwatched = (w.unwatched.load path read).1 := by
  have hn : (w.unwatched.make.machines w.unwatched.made).machine = w.session.freshMachine :=
    w.unwatched.make_machine
  have hm (m : Machine) : (w.make.setMachine w.made m).unwatched.machines =
      (w.unwatched.make.setMachine w.made m).machines := by
    rw [unwatched_setMachine, unwatched_make]
  rw [load, load, make_machine, hn]
  obtain ⟨m, err | n⟩ := w.session.freshMachine.load read
  · apply WatchedSession.ext
    case machines => exact hm m
    all_goals rfl
  · apply WatchedSession.ext
    case machines => exact hm m
    all_goals rfl

theorem onSession_unwatched (w : WatchedSession) {e : SessionEvent}
    (he : ∀ on, e ≠ .setTracing on) :
    (w.unwatched.onSession e).1 = (w.onSession e).1.unwatched := by
  obtain ⟨hs, -⟩ := w.session.perform_setTracing false he
  have hw : w.unwatched.session = w.session.setTracing false := rfl
  simp only [onSession, hw, hs]
  exact (w.unwatched_put _).symm

/-- Hooks change nothing but who is given the lines. -/
theorem Wired.perform_unwatched (h : w.Wired) (he : e.isListen = false) :
    (w.unwatched.perform e).1 = (w.perform e).1.unwatched ∧
      (w.unwatched.perform e).2.1 = (w.perform e).2.1 := by
  constructor
  · cases e with
    | load path read => exact (w.unwatched_load path read).symm
    | reset => exact w.unwatched_reset.symm
    | togglePause => exact w.onSession_unwatched (e := .togglePause) nofun
    | toggle b => exact w.onSession_unwatched (e := .toggle b) nofun
    | frame =>
      have hs : w.unwatched.session.runFrame.1 = w.session.runFrame.1.setTracing false :=
        (w.session.runFrame_setTracing false).1
      simp only [perform, h.runFrame_eq, h.unwatched.runFrame_eq, hs]
      exact (w.unwatched_put _).symm
    | press name => exact w.onSession_unwatched (e := .press name) nofun
    | release name => exact w.onSession_unwatched (e := .release name) nofun
    | listen listener => cases he
  · obtain ⟨-, ha⟩ := w.session.perform_setTracing false (WatchedEvent.plain_ne_setTracing he)
    have hs : w.unwatched.session = w.session.setTracing false := rfl
    rw [(h.performs e).answer_eq, (h.unwatched.performs e).answer_eq, hs, ha]

theorem Wired.run_unwatched (h : w.Wired) (es : List WatchedEvent) :
    w.unwatched.run (es.filter fun e ↦ !e.isListen) = (w.run es).unwatched ∧
      w.unwatched.answers (es.filter fun e ↦ !e.isListen) = w.answers es := by
  induction es generalizing w with
  | nil => exact ⟨rfl, rfl⟩
  | cons e es ih =>
    obtain ⟨hr, ha⟩ := ih (h.performs e).wired
    cases he : e.isListen with
    | true =>
      have hw : (w.perform e).1.unwatched = w.unwatched := by
        cases e with
        | listen listener => exact w.unwatched_listen listener
        | _ => cases he
      have hn : (w.perform e).2.1 = none := by rw [(h.performs e).answer_eq, he, if_pos rfl]
      rw [List.filter_cons_of_neg (by simp [he]), ← hw, answers, hn]
      exact ⟨hr, ha⟩
    | false =>
      obtain ⟨hw, hn⟩ := h.perform_unwatched he
      rw [← hw] at hr ha
      rw [List.filter_cons_of_pos (by simp [he]), answers, answers, hn]
      exact ⟨hr, congrArg _ ha⟩

/-- The lines of a frame are those of the words that the current machine fetches in it, and no other
event has any. All of them go to the listener of the session. -/
theorem Wired.frame_calls (h : w.Wired) :
    (∀ e, e ≠ .frame → (w.perform e).2.2 = []) ∧
      ∃ lines, (w.perform .frame).2.2 = w.told lines ∧
        if w.session.isActive then
          Session.Observed w.machine w.runFrame.2.1 w.runFrame.1.halt lines
        else lines = [] := by
  constructor
  · intro e he
    cases e with
    | frame => exact absurd rfl he
    | _ => rfl
  · simp only [perform, h.runFrame_eq]
    cases ha : w.session.isActive with
    | false =>
      rw [Session.runFrame_of_idle ha]
      exact ⟨[], rfl, rfl⟩
    | true =>
      obtain ⟨lines, hl, ho⟩ := Session.runFrame_observed ha
      rw [hl]
      exact ⟨lines, w.told_tracing lines, ho⟩

/-- Listening changes nothing but the lines, which are those that a session without hooks answers
with. Whenever the listener changes, and whatever was loaded, given up or reset before, a frame
gives the listener one line for each word that its machine fetches, and nothing to anybody else. -/
theorem watching_faithful (cpuHz : Option Rat) (dialect : Dialect) (random : RandomSource)
    (es : List WatchedEvent) :
    let w₀ := new cpuHz dialect random
    let w := w₀.run es
    let others := es.filter fun e ↦ !e.isListen
    w.unwatched = w₀.run others ∧ w₀.answers es = w₀.answers others ∧
      w.session = (Session.new cpuHz dialect random).run (es.map WatchedEvent.plain) ∧
      (∀ e, (w.perform e).2.2 = w.told (w.session.perform e.plain).2.lines) ∧
      (∀ e, e ≠ .frame → (w.perform e).2.2 = []) ∧
      ∃ lines, (w.perform .frame).2.2 = w.told lines ∧
        if w.session.isActive then
          Session.Observed w.machine w.runFrame.2.1 w.runFrame.1.halt lines
        else lines = [] := by
  intro w₀ w others
  have hw₀ : w₀.Wired := wired_new cpuHz dialect random
  obtain ⟨hw, hs⟩ := hw₀.run es
  obtain ⟨hr, ha⟩ := hw₀.run_unwatched es
  exact ⟨hr.symm, ha.symm, hs, fun e ↦ (hw.performs e).calls_eq, hw.frame_calls⟩

/-- A call and a word that is no instruction, fetched with registers, index and timers that are not
zero. The program stays when another one cannot be found, and the second listener takes the place of
the first. -/
theorem lines_of_call_and_no_instruction :
    let es : List WatchedEvent :=
      [.listen (some 1),
        .load "rom" (.ok
          #[0x6A, 0x2A, 0xFA, 0x15, 0x7A, 0x01, 0xFA, 0x18, 0xA3, 0x33, 0x22, 0x0C, 0x00, 0x00]),
        .load "gone" (.error (.notFound "gone")), .listen (some 2)]
    let w := (new none .plain (.cycle [])).run es
    ∃ lines, (w.perform .frame).2.2 = lines.map (fun line ↦ ⟨2, line⟩) ∧
      Session.Observed w.machine 6 (some (.invalidWord 0x0000 0x20C)) lines ∧
      lines.drop 5 =
        ["20A  220C  CALL 0x20C             " ++
            "V:00 00 00 00 00 00 00 00 00 00 2B 00 00 00 00 00 I:333 SP:0 DT:2A ST:2B",
          "20C  0000  ???                    " ++
            "V:00 00 00 00 00 00 00 00 00 00 2B 00 00 00 00 00 I:333 SP:1 DT:2A ST:2B"] := by
  intro es w
  obtain ⟨-, -, -, -, -, lines, hcalls, ho⟩ := watching_faithful none .plain (.cycle []) es
  have hl : w.listener = some 2 := rfl
  have hframe : w.session.isActive = true ∧ w.runFrame.2.1 = 6 ∧
      w.runFrame.1.halt = some (.invalidWord 0x0000 0x20C) := by decide +kernel
  have hlines : ((w.perform .frame).2.2.map Call.line).drop 5 =
      ["20A  220C  CALL 0x20C             " ++
          "V:00 00 00 00 00 00 00 00 00 00 2B 00 00 00 00 00 I:333 SP:0 DT:2A ST:2B",
        "20C  0000  ???                    " ++
          "V:00 00 00 00 00 00 00 00 00 00 2B 00 00 00 00 00 I:333 SP:1 DT:2A ST:2B"] := by
    decide +kernel
  obtain ⟨ha, hn, hh⟩ := hframe
  change (w.perform .frame).2.2 = w.told lines at hcalls
  change if w.session.isActive then Session.Observed w.machine w.runFrame.2.1 w.runFrame.1.halt lines
    else lines = [] at ho
  rw [if_pos ha, hn, hh] at ho
  rw [told, hl] at hcalls
  refine ⟨lines, hcalls, ho, ?_⟩
  rw [← hlines, hcalls, List.map_map]
  exact congrArg (List.drop 5) (List.map_id' lines).symm

end WatchedSession

end Chip8
