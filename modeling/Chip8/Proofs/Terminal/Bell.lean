import Chip8.Proofs.Terminal.Moments

namespace Chip8

namespace Timers

theorem countDown_ne_zero_iff (t : UInt8) : countDown t ≠ 0 ↔ t ≠ 0 ∧ t ≠ 1 := by
  rw [Ne, ← UInt8.toNat_inj, Ne, ← UInt8.toNat_inj, Ne, ← UInt8.toNat_inj, toNat_countDown,
    UInt8.toNat_zero, UInt8.toNat_one]
  omega

end Timers

def HostAction.Restarts (a : HostAction) : Prop :=
  ∃ name, a = .key (.text name) ∧ Keyboard.commandFor? name = some .reset

theorem HostAction.Restarts.ne_frame {a : HostAction} (h : a.Restarts) : a ≠ .frame := by
  obtain ⟨name, rfl, -⟩ := h
  exact HostAction.noConfusion

namespace Session

/-- A tick takes away a sound of its own length. -/
theorem runFrame_sound_ne_zero_iff (s : Session) :
    s.runFrame.1.machine.timers.sound ≠ 0 ↔
      s.played.timers.sound ≠ 0 ∧ ¬(s.ticks = true ∧ s.played.timers.sound = 1) := by
  rw [runFrame_machine]
  cases s.ticks with
  | false => simp
  | true =>
    have ht : s.played.tick.timers.sound = Timers.countDown s.played.timers.sound := rfl
    simp [ht, Timers.countDown_ne_zero_iff]

end Session

namespace Host

variable {i : Invocation} {interactive : Bool} {es : List HostEvent} {as : List HostAction}
  {a : HostAction} {h : Host}

def sound (h : Host) : UInt8 := h.session.machine.timers.sound

def Rings (h : Host) : Prop := ∃ rest, h.onFrame.2.out = bell ++ rest

theorem draw_out_ne_bell (h : Host) (must : Bool) (rest : String) :
    (h.draw must).2.out ≠ bell ++ rest := by
  intro he
  have hl := congrArg String.toList he
  unfold draw at hl
  dsimp only at hl
  split at hl
  · simp [Report.empty, bell] at hl
  · simp [Report.print, Report.empty, screenText, home, control, bell] at hl

theorem onFrame_out (h : Host) :
    h.onFrame.2.out =
      (if 0 < h.framed.sound && h.soundBefore == 0 then bell else "") ++
        (h.framed.draw false).2.out := by
  have ho (b : Bool) : (if b then Report.print bell else .empty).out = if b then bell else "" := by
    cases b <;> rfl
  have he (b : Bool) : (if b then Report.print bell else .empty).exit = none := by
    cases b <;> rfl
  unfold onFrame
  dsimp only
  rw [Report.out_append, Report.out_append rfl, ho]
  · rfl
  · rw [Report.exit_append rfl, he]

theorem rings_iff (h : Host) : h.Rings ↔ h.soundBefore = 0 ∧ h.framed.sound ≠ 0 := by
  have hb : (0 < h.framed.sound && h.soundBefore == 0) = true ↔
      h.soundBefore = 0 ∧ h.framed.sound ≠ 0 := by
    simp [UInt8.pos_iff_ne_zero, and_comm]
  rw [Rings, onFrame_out, ← hb]
  split
  · next hr => exact ⟨fun _ ↦ hr, fun _ ↦ ⟨_, rfl⟩⟩
  · next hr =>
    refine ⟨?_, fun h ↦ absurd h hr⟩
    rintro ⟨rest, he⟩
    rw [String.empty_append] at he
    exact absurd he (h.framed.draw_out_ne_bell false rest)

theorem onFrame_sound (h : Host) : h.onFrame.1.soundBefore = h.onFrame.1.sound := by
  obtain ⟨drawn, hd⟩ := h.framed.draw_eq false
  rw [onFrame_eq, hd]
  rfl

theorem act_of_restarts (ha : a.Restarts) :
    (h.act a).1.sound = 0 ∧ (h.act a).1.soundBefore = h.soundBefore := by
  obtain ⟨name, rfl, hc⟩ := ha
  obtain ⟨drawn, hd⟩ := h.restart.1.draw_eq true
  have hact : (h.act (.key (.text name))).1 = (h.restart.1.draw true).1 := by
    simp only [act, onKey, hc, obey]
  rw [hact, hd, restart_eq]
  refine ⟨?_, rfl⟩
  exact congrArg Timers.sound (Session.idle_load_reset _ _ _).timers_eq

theorem hold_quiet (h : Host) (name : String) :
    (h.hold name).sound = h.sound ∧ (h.hold name).soundBefore = h.soundBefore := by
  cases hk : Keyboard.keyFor? name with
  | none =>
    rw [hold_of_none hk]
    exact ⟨rfl, rfl⟩
  | some key =>
    rw [hold_of_some hk]
    exact ⟨congrArg Timers.sound (h.session.setKey_timers name true), rfl⟩

theorem obey_quiet (h : Host) {c : HostCommand} (hc : c ≠ .reset) :
    (h.obey c).1.sound = h.sound ∧ (h.obey c).1.soundBefore = h.soundBefore := by
  cases c with
  | pause =>
    refine ⟨?_, rfl⟩
    exact congrArg (fun m : Machine ↦ m.timers.sound) h.session.togglePause_machine
  | quit => exact ⟨congrArg Timers.sound (Session.release_all_timers _ h.session), rfl⟩
  | reset => exact absurd rfl hc
  | toggle flag =>
    obtain ⟨dialect, hm⟩ := h.session.toggle_machine flag
    have ht : (h.session.toggle flag).1.machine.timers = h.session.machine.timers := by rw [hm]
    exact ⟨congrArg Timers.sound ht, rfl⟩

theorem act_of_not_restarts (ha : ¬a.Restarts) (hf : a ≠ .frame) :
    (h.act a).1.sound = h.sound ∧ (h.act a).1.soundBefore = h.soundBefore := by
  cases a with
  | frame => exact absurd rfl hf
  | wait ms =>
    exact ⟨congrArg Timers.sound (Session.release_all_timers _ h.session), rfl⟩
  | key name =>
    cases name with
    | half u => exact ⟨rfl, rfl⟩
    | text name =>
      simp only [act, onKey]
      cases hc : Keyboard.commandFor? name with
      | none => exact h.hold_quiet name
      | some c =>
        have hr : c ≠ .reset := fun hr ↦ ha ⟨name, rfl, hr ▸ hc⟩
        obtain ⟨drawn, hd⟩ := (h.obey c).1.draw_eq true
        dsimp only
        rw [hd]
        exact h.obey_quiet hr

/-- Since the last frame, a restart has cut a sound short. -/
def CutShort (i : Invocation) (interactive : Bool) (es : List HostEvent) (as : List HostAction) :
    Prop :=
  ∃ as₁ a as₂ h, as = as₁ ++ a :: as₂ ∧ a.Restarts ∧ .frame ∉ as₂ ∧
    Moment i interactive es as₁ h ∧ h.sound ≠ 0

theorem not_cutShort_nil : ¬CutShort i interactive es [] := by
  rintro ⟨as₁, a, as₂, h, heq, -⟩
  exact List.append_ne_nil_of_right_ne_nil as₁ (List.cons_ne_nil a as₂) heq.symm

theorem cutShort_concat_iff (hm : Moment i interactive es as h) :
    CutShort i interactive es (as ++ [a]) ↔
      a ≠ .frame ∧ CutShort i interactive es as ∨ a.Restarts ∧ h.sound ≠ 0 := by
  constructor
  · rintro ⟨as₁, b, as₂, h₁, heq, hb, hf, hm₁, hs⟩
    obtain rfl | ⟨as₃, c, rfl⟩ := as₂.eq_nil_or_concat
    · obtain ⟨rfl, hab⟩ := List.append_inj' heq rfl
      obtain rfl := List.singleton_inj.mp hab
      rw [hm.unique hm₁]
      exact .inr ⟨hb, hs⟩
    · rw [List.concat_eq_append, ← List.cons_append, ← List.append_assoc] at heq
      obtain ⟨rfl, hac⟩ := List.append_inj' heq rfl
      obtain rfl := List.singleton_inj.mp hac
      rw [List.concat_eq_append, List.mem_append, not_or, List.mem_singleton] at hf
      exact .inl ⟨Ne.symm hf.2, as₁, b, as₃, h₁, rfl, hb, hf.1, hm₁, hs⟩
  · rintro (⟨ha, as₁, b, as₂, h₁, rfl, hb, hf, hm₁, hs⟩ | ⟨ha, hs⟩)
    · refine ⟨as₁, b, as₂ ++ [a], h₁, by simp, hb, ?_, hm₁, hs⟩
      simp [hf, ha.symm]
    · exact ⟨as, a, [], h, rfl, ha, List.not_mem_nil, hm, hs⟩

/-- The sound that the bell compares with is the one there is, or one that a restart cut short. -/
theorem soundBefore_of_moment (hm : Moment i interactive es as h) :
    h.soundBefore = h.sound ∧ ¬CutShort i interactive es as ∨
      h.sound = 0 ∧ h.soundBefore ≠ 0 ∧ CutShort i interactive es as := by
  induction hm using Moment.induct with
  | start h _ hf =>
    refine .inl ⟨?_, not_cutShort_nil⟩
    rw [hf.silent, sound, hf.idle.timers_eq]
    rfl
  | act as h a hm _ _ ih =>
    rw [cutShort_concat_iff hm]
    by_cases ha : a.Restarts
    · obtain ⟨hs, hb⟩ := h.act_of_restarts ha
      rw [hs, hb]
      obtain ⟨heq, hc⟩ | ⟨-, hne, hc⟩ := ih
      · by_cases hz : h.sound = 0
        · exact .inl ⟨heq.trans hz, by simp [hc, hz]⟩
        · exact .inr ⟨rfl, heq ▸ hz, .inr ⟨ha, hz⟩⟩
      · exact .inr ⟨rfl, hne, .inl ⟨ha.ne_frame, hc⟩⟩
    by_cases hf : a = .frame
    · subst hf
      exact .inl ⟨h.onFrame_sound, by simp [ha]⟩
    · obtain ⟨hs, hb⟩ := h.act_of_not_restarts ha hf
      simpa [hs, hb, ha, hf] using ih

/-- The bell rings at the frames whose steps start a sound. It misses a sound that the tick of the
same frame ends, and one that starts in the first frame after a restart has cut another short. -/
theorem rings_iff_sound_starts (hm : Moment i interactive es as h) :
    h.Rings ↔ h.sound = 0 ∧ h.session.played.timers.sound ≠ 0 ∧
      ¬(h.session.ticks = true ∧ h.session.played.timers.sound = 1) ∧
      ¬CutShort i interactive es as := by
  have hframed : h.framed.sound ≠ 0 ↔ h.session.played.timers.sound ≠ 0 ∧
      ¬(h.session.ticks = true ∧ h.session.played.timers.sound = 1) :=
    h.session.runFrame_sound_ne_zero_iff
  rw [rings_iff, hframed]
  obtain ⟨heq, hc⟩ | ⟨-, hne, hc⟩ := soundBefore_of_moment hm
  · simp [heq, hc]
  · simp [hne, hc]

/-- A sound of nine ticks, cut short by a restart after the first frame, starts again in the
second. -/
theorem silent_after_cut_short :
    ∃ as h, Moment (.ofProgram #[0x60, 0x09, 0xF0, 0x18, 0x12, 0x04]) true
        [.frames 1, .input "\x1b[15~"] as h ∧
      h.sound = 0 ∧ h.session.played.timers.sound = 9 ∧ ¬h.Rings ∧
      CutShort (.ofProgram #[0x60, 0x09, 0xF0, 0x18, 0x12, 0x04]) true
        [.frames 1, .input "\x1b[15~"] as := by
  obtain ⟨h, hm, hs, hp, hb⟩ := exists_moment
    (.ofProgram #[0x60, 0x09, 0xF0, 0x18, 0x12, 0x04]) true [.frames 1, .input "\x1b[15~"]
    (fun h ↦ h.sound = 0 ∧ h.session.played.timers.sound = 9 ∧ h.soundBefore ≠ 0)
    (by decide +kernel)
  have hr : ¬h.Rings := fun hr ↦ hb ((rings_iff h).mp hr).1
  refine ⟨_, h, hm, hs, hp, hr, by_contra fun hc ↦ hr ?_⟩
  refine (rings_iff_sound_starts hm).mpr ⟨hs, ?_, ?_, hc⟩
  · rw [hp]
    decide
  · rw [hp]
    rintro ⟨-, h₁⟩
    cases h₁

/-- A sound of one tick. -/
theorem silent_at_shortest_sound :
    ∃ h, Moment (.ofProgram #[0x60, 0x01, 0xF0, 0x18, 0x12, 0x04]) true [] [] h ∧
      h.sound = 0 ∧ h.session.played.timers.sound ≠ 0 ∧ ¬h.Rings := by
  obtain ⟨h, hm, hs, hp, hf⟩ := exists_moment
    (.ofProgram #[0x60, 0x01, 0xF0, 0x18, 0x12, 0x04]) true []
    (fun h ↦ h.sound = 0 ∧ h.session.played.timers.sound ≠ 0 ∧ h.framed.sound = 0)
    (by decide +kernel)
  exact ⟨h, hm, hs, hp, fun hr ↦ ((rings_iff h).mp hr).2 hf⟩

end Host

end Chip8
