import Chip8.Proofs.Terminal.KeyLog

namespace Chip8

namespace Host

variable {h h' : Host} {l : KeyLog} {k : Key} {name : String}

/-- The host holds the keys that were received less than the hold time ago, and the keys of the
keypad that are down are those whose hold is undisturbed. -/
structure Agrees (l : KeyLog) (h : Host) : Prop where
  clock_eq : h.clock = l.clock
  ordered : l.Ordered
  held_iff : ∀ name due, ⟨name, due⟩ ∈ h.held ↔
    (Keyboard.keyFor? name).isSome = true ∧ l.received.lookup name = some (due - 150) ∧
      l.clock < due
  down_iff : ∀ k, h.session.machine.keypad.isDown k = true ↔ l.Undisturbed k

theorem Agrees.of_eq (ha : Agrees l h) (hc : h'.clock = h.clock) (hh : h'.held = h.held)
    (hk : h'.session.machine.keypad = h.session.machine.keypad) : Agrees l h' where
  clock_eq := hc.trans ha.clock_eq
  ordered := ha.ordered
  held_iff name due := by rw [hh, ha.held_iff]
  down_iff k := by rw [hk, ha.down_iff]

theorem Agrees.draw (ha : Agrees l h) (must : Bool) : Agrees l (h.draw must).1 := by
  obtain ⟨drawn, hd⟩ := h.draw_eq must
  rw [hd]
  exact ha.of_eq rfl rfl rfl

theorem Agrees.receive_none (ha : Agrees l h) (hk : Keyboard.keyFor? name = none) :
    Agrees (l.receive name) h where
  clock_eq := ha.clock_eq
  ordered := ha.ordered.receive name
  held_iff name' due := by
    rw [ha.held_iff, KeyLog.lookup_receive]
    split
    · next hn => simp [hn, hk]
    · rfl
  down_iff k := by
    rw [ha.down_iff, KeyLog.undisturbed_receive_iff]
    simp [hk]

theorem Agrees.hold (ha : Agrees l h) (name : String) : Agrees (l.receive name) (h.hold name) := by
  cases hk : Keyboard.keyFor? name with
  | none =>
    rw [hold_of_none hk]
    exact ha.receive_none hk
  | some key =>
    rw [hold_of_some hk]
    refine ⟨ha.clock_eq, ha.ordered.receive name, fun name' due ↦ ?_, fun k ↦ ?_⟩
    · simp only [List.mem_append, List.mem_filter, ha.held_iff, List.mem_singleton, Hold.mk.injEq,
        KeyLog.lookup_receive, ha.clock_eq]
      by_cases hn : name' = name
      · simp [hn, hk, KeyLog.receive]
        omega
      · simp [hn, KeyLog.receive]
    · rw [Session.press, Session.isDown_setKey]
      by_cases hkey : Keyboard.keyFor? name = some k
      · simp [hkey, KeyLog.undisturbed_receive hkey]
      · rw [if_neg hkey, ha.down_iff, KeyLog.undisturbed_receive_iff hkey]

theorem Agrees.wait (ha : Agrees l h) {ms : Int} (hms : 0 ≤ ms) :
    Agrees (l.next (.wait ms)) (h.onWait ms) := by
  have hc := ha.clock_eq
  have hnext : (l.next (.wait ms)).received = l.received := rfl
  refine ⟨congrArg (· + ms) hc, ha.ordered.wait hms, fun name due ↦ ?_, fun k ↦ ?_⟩
  · rw [mem_held_onWait, ha.held_iff, hnext, hc, KeyLog.next]
    dsimp only
    constructor
    · rintro ⟨⟨hs, ht, -⟩, hd⟩
      exact ⟨hs, ht, hd⟩
    · rintro ⟨hs, ht, hd⟩
      exact ⟨⟨hs, ht, by omega⟩, hd⟩
  · rw [isDown_onWait, ha.down_iff, KeyLog.undisturbed_wait_iff ha.ordered hms, hc]
    refine and_congr_right fun _ ↦ ⟨fun he name t hk ht hlt ↦ ?_, fun hw d hd hdue hk ↦ ?_⟩
    · by_contra hge
      have hm : ⟨name, t + 150⟩ ∈ h.held := by
        rw [ha.held_iff, hk, ht, Int.add_sub_cancel]
        exact ⟨rfl, rfl, hlt⟩
      exact he _ hm (Int.not_lt.mp hge) hk
    · obtain ⟨-, ht, hlt⟩ := (ha.held_iff d.name d.due).mp hd
      have := hw _ _ hk ht (by omega)
      omega

theorem Agrees.restart (ha : Agrees l h) : Agrees ⟨l.clock, []⟩ h.restart.1 := by
  rw [restart_eq]
  refine ⟨ha.clock_eq, KeyLog.ordered_nil _, fun name due ↦ ?_, fun k ↦ ?_⟩
  · simp
  · simp [(Session.idle_load_reset _ _ _).keypad_eq, KeyLog.not_undisturbed_nil, Keypad.isDown,
      Keypad.initial]

theorem Agrees.command (ha : Agrees l h) {c : HostCommand}
    (hc : Keyboard.commandFor? name = some c) (he : (h.obey c).2.exit = none) :
    Agrees (l.next (.key (.text name))) (h.obey c).1 := by
  have hk := Keyboard.keyFor?_of_commandFor? hc
  rw [KeyLog.next, hc]
  cases c with
  | pause =>
    refine (ha.receive_none hk).of_eq rfl rfl ?_
    exact congrArg Machine.keypad h.session.togglePause_machine
  | quit => cases he
  | reset => exact ha.restart
  | toggle flag =>
    obtain ⟨dialect, hd⟩ := h.session.toggle_machine flag
    have hkeypad : (h.session.toggle flag).1.machine.keypad = h.session.machine.keypad := by rw [hd]
    exact (ha.receive_none hk).of_eq rfl rfl hkeypad

theorem Agrees.act (ha : Agrees l h) {a : HostAction} (hw : ∀ ms, a = .wait ms → 0 ≤ ms)
    (he : (h.act a).2.exit = none) : Agrees (l.next a) (h.act a).1 := by
  cases a with
  | key name =>
    cases name with
    | half u => exact ha
    | text name =>
      simp only [Host.act, onKey] at he ⊢
      cases hc : Keyboard.commandFor? name with
      | none =>
        have hr : l.next (.key (.text name)) = l.receive name := by simp [KeyLog.next, hc, KeyLog.receive]
        rw [hr]
        exact ha.hold name
      | some c =>
        simp only [hc] at he ⊢
        exact (ha.command hc (Report.exit_left_of_append he)).draw true
  | frame =>
    have hs : Agrees l h.framed := ha.of_eq rfl rfl h.session.runFrame_keypad
    exact hs.draw false
  | wait ms => exact ha.wait (hw ms rfl)

theorem Fresh.agrees (hf : h.Fresh) : Agrees ⟨0, []⟩ h := by
  refine ⟨hf.clock_eq, KeyLog.ordered_nil 0, fun name due ↦ ?_, fun k ↦ ?_⟩
  · simp [hf.held_eq]
  · simp [hf.idle.keypad_eq, KeyLog.not_undisturbed_nil, Keypad.isDown, Keypad.initial]

section Moment

variable {i : Invocation} {interactive : Bool} {es : List HostEvent} {as : List HostAction}

theorem agrees_of_moment (hm : Moment i interactive es as h)
    (hw : ∀ ms, .wait ms ∈ es → 0 ≤ ms) : Agrees (.ofActions as) h := by
  induction hm using Moment.induct with
  | start h _ hf => exact hf.agrees
  | act as h a _ hnext he ih =>
    rw [KeyLog.ofActions_concat]
    refine ih.act ?_ he
    rintro ms rfl
    obtain ⟨e, hes, hms⟩ := hnext.mem_actions (List.mem_concat_self ..)
    cases e with
    | input text => simp [HostEvent.actions] at hms
    | frames n => simp [HostEvent.actions] at hms
    | wait ms' =>
      obtain rfl := HostAction.wait.inj (List.mem_singleton.mp hms)
      exact hw ms hes

theorem mem_keys_of_moment {name : String} {t : Int} (hm : Moment i interactive es as h)
    (ht : (name, t) ∈ (KeyLog.ofActions as).received) (hk : Keyboard.keyFor? name = some k) :
    (name, k) ∈ Keyboard.keys := by
  obtain ⟨e, -, ha⟩ := hm.mem_actions (KeyLog.mem_of_received ht)
  cases e with
  | input text =>
    obtain ⟨_, hn, hname⟩ := List.mem_map.mp ha
    obtain rfl := HostAction.key.inj hname
    exact Keyboard.mem_keys_of_received hn hk
  | frames n => simp [HostEvent.actions] at ha
  | wait ms => simp [HostEvent.actions] at ha

/-- A key of the keypad that is down was received less than the hold time ago. The other way round
this holds of every key but `A`, which two keys of the keyboard stand for: `A` is up as soon as the
hold of either ends. -/
theorem keys_down_while_held (hm : Moment i interactive es as h)
    (hw : ∀ ms, .wait ms ∈ es → 0 ≤ ms) (k : Key) :
    (h.session.machine.keypad.isDown k = true ↔ (KeyLog.ofActions as).Undisturbed k) ∧
      (h.session.machine.keypad.isDown k = true → (KeyLog.ofActions as).Recent k) ∧
      (k ≠ 0xA → (h.session.machine.keypad.isDown k = true ↔ (KeyLog.ofActions as).Recent k)) := by
  have ha := agrees_of_moment hm hw
  rw [ha.down_iff]
  refine ⟨Iff.rfl, KeyLog.recent_of_undisturbed, fun hk ↦ ⟨KeyLog.recent_of_undisturbed, ?_⟩⟩
  refine KeyLog.undisturbed_of_recent ha.ordered ?_
  intro p hp q hq hpk hqk
  exact Keyboard.name_unique (mem_keys_of_moment hm hp hpk) (mem_keys_of_moment hm hq hqk) hk

end Moment

theorem key_down_before_hold_ends :
    ∃ as h, Moment (.ofProgram #[0x12, 0x00]) true [.input "q", .wait 149] as h ∧
      (∀ ms, .wait ms ∈ [HostEvent.input "q", .wait 149] → 0 ≤ ms) ∧
      h.session.machine.keypad.isDown 0x4 = true ∧ (KeyLog.ofActions as).Recent 0x4 := by
  obtain ⟨h, hm, hd⟩ := exists_moment (.ofProgram #[0x12, 0x00]) true [.input "q", .wait 149]
    (fun h ↦ h.session.machine.keypad.isDown 0x4 = true) (by decide +kernel)
  have hw : ∀ ms, .wait ms ∈ [HostEvent.input "q", .wait 149] → 0 ≤ ms := by simp
  exact ⟨_, h, hm, hw, hd, (keys_down_while_held hm hw 0x4).2.1 hd⟩

/-- When the hold of `z` ends, `y` has been held for only 50 milliseconds. -/
theorem newer_press_ended_by_older :
    ∃ as h, Moment (.ofProgram #[0x12, 0x00]) true
        [.input "z", .wait 100, .input "y", .wait 50] as h ∧
      (KeyLog.ofActions as).Recent 0xA ∧ h.session.machine.keypad.isDown 0xA = false := by
  obtain ⟨h, hm, hd⟩ := exists_moment (.ofProgram #[0x12, 0x00]) true
    [.input "z", .wait 100, .input "y", .wait 50]
    (fun h ↦ h.session.machine.keypad.isDown 0xA = false) (by decide +kernel)
  exact ⟨_, h, hm, ⟨"y", 100, by decide, by decide +kernel, by decide +kernel⟩, hd⟩

end Host

end Chip8
