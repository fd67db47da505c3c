import Chip8.Dialect.Behaviour
import Chip8.Proofs.Machine.Footprint
import Chip8.Proofs.Screen.Pictures
import Chip8.Proofs.Terminal.Bell

namespace Chip8

structure Screen.Later (s s' : Screen) : Prop where
  le : s.revision ≤ s'.revision
  eq_of_eq : s'.revision = s.revision → s' = s

namespace Screen

variable {s s' s'' : Screen}

theorem Later.refl (s : Screen) : s.Later s := ⟨Nat.le_refl _, fun _ ↦ rfl⟩

theorem Later.of_succ (h : s'.revision = s.revision + 1) : s.Later s' :=
  ⟨by omega, fun he ↦ by omega⟩

theorem Later.trans (h : s.Later s') (h' : s'.Later s'') : s.Later s'' where
  le := Nat.le_trans h.le h'.le
  eq_of_eq he := by
    have hle := h.le
    have hle' := h'.le
    rw [h'.eq_of_eq (by omega), h.eq_of_eq (by omega)]

end Screen

theorem Machine.StepsTo.later {m m' : Machine} {o : Outcome} (h : m.StepsTo m' o) :
    m.screen.Later m'.screen := by
  cases h with
  | @execute w i hr hw hi ho =>
    have hf := execute_footprint hi ho
    by_cases ht : m.MayTouch w .screen
    · exact .of_succ (hf.drawn ht)
    · rw [show (m.execute i).screen = m.screen from hf.same .screen ht]
      exact .refl _
  | _ => exact .refl _

namespace Session

theorem runFrame_later (s : Session) : s.machine.screen.Later s.runFrame.1.machine.screen := by
  have hp : s.machine.screen.Later s.played.screen := by
    rw [played]
    split
    · exact burst_preserves (P := fun m ↦ s.machine.screen.Later m.screen)
        (fun m hm ↦ hm.trans m.stepsTo.later) (.refl _)
    · exact .refl _
  rw [runFrame_machine]
  split
  · exact hp
  · exact hp

theorem setKey_eq (s : Session) (name : String) (down : Bool) :
    ∃ keypad, (s.setKey name down).1 =
      { s with machine := { s.machine with keypad := keypad } } := by
  unfold setKey
  split
  · exact ⟨_, rfl⟩
  · exact ⟨_, rfl⟩

theorem release_all_eq (holds : List Hold) (s : Session) :
    ∃ keypad, holds.foldl (fun s h ↦ (s.release h.name).1) s =
      { s with machine := { s.machine with keypad := keypad } } := by
  induction holds generalizing s with
  | nil => exact ⟨_, rfl⟩
  | cons h holds ih =>
    obtain ⟨keypad, hs⟩ := s.setKey_eq h.name false
    obtain ⟨keypad', hr⟩ := ih (s.release h.name).1
    refine ⟨keypad', hr.trans ?_⟩
    rw [release, hs]

end Session

namespace Host

variable {i : Invocation} {interactive : Bool} {h h' : Host} {out text : String} {a : HostAction}
  {as : List HostAction} {s s' : Session}

/-- The host after events that did not end the program, and all that was written up to then. The
files may be others at each event, and the program may be gone when it is to start again. -/
inductive Written (i : Invocation) (interactive : Bool) : Host → String → Prop
  | start {h : Host} {r : Report} (hs : start i interactive = (some h, r)) :
      Written i interactive h r.out
  | event {h : Host} {out : String} (hw : Written i interactive h out) (files : FileTable)
      (e : HostEvent) (he : ({ h with files := files }.handle e).2.exit = none) :
      Written i interactive ({ h with files := files }.handle e).1
        (out ++ ({ h with files := files }.handle e).2.out)

def onOff (b : Bool) : String := if b then "on" else "off"

def switches (d : Dialect) : List String :=
  ["F1 Shifts use VY: " ++ onOff (d.bits.testBit 0),
    "F2 BNNN uses VX: " ++ onOff (d.bits.testBit 1),
    "F3 FX changes I: " ++ onOff (d.bits.testBit 2)]

/-- What is written from the corner of the terminal on. The two lines below the status are cleared
up to their ends, the status is not. -/
def layout (picture : List String) (status : String) (switches : List String) : String :=
  "\x1b[H" ++ "\n".intercalate picture ++ "\n\n" ++ status ++ "\n" ++
    "  ".intercalate switches ++ "\x1b[K" ++ "\n" ++ "p pause  F5 reset  Esc quit" ++ "\x1b[K"

def shownText (s : Session) : String :=
  layout (Picture.lines s.machine.screen.frame) s.status (switches s.dialect)

theorem switchLine_eq (d : Dialect) : switchLine d = "  ".intercalate (switches d) := by
  have first : "F" ++ toString (0 + 1) ++ " " ++ "Shifts use VY" ++ ": " =
    "F1 Shifts use VY: " := by decide
  have second : "F" ++ toString (1 + 1) ++ " " ++ "BNNN uses VX" ++ ": " =
    "F2 BNNN uses VX: " := by decide
  have third : "F" ++ toString (2 + 1) ++ " " ++ "FX changes I" ++ ": " =
    "F3 FX changes I: " := by decide
  rw [switches, ← d.has_shiftLeft 0, ← d.has_shiftLeft 1, ← d.has_shiftLeft 2, ← first, ← second,
    ← third]
  rfl

theorem screenText_eq (s : Session) : screenText s = shownText s := by
  have corner : home = "\x1b[H" := by decide
  have restOfLine : clearLine = "\x1b[K" := by decide
  unfold screenText statusText shownText layout
  rw [switchLine_eq, corner, restOfLine]
  simp only [String.append_assoc]

/-- The text was written last, and after it only the bell has rung. -/
def ShownLast (out text : String) : Prop :=
  ∃ before bells, out = before ++ text ++ bells ∧ ∀ c ∈ bells.toList, c = '\x07'

theorem screenText_congr (hs : s'.machine.screen = s.machine.screen)
    (ht : statusText s' = statusText s) : screenText s' = screenText s := by
  rw [screenText, screenText, hs, ht]

theorem shownLast_append (before text : String) : ShownLast (before ++ text) text :=
  ⟨before, "", by rw [String.append_empty], by simp⟩

theorem ShownLast.ring (h : ShownLast out text) (b : Bool) :
    ShownLast (out ++ if b then bell else "") text := by
  obtain ⟨before, bells, rfl, hb⟩ := h
  refine ⟨before, bells ++ if b then bell else "", by rw [String.append_assoc], ?_⟩
  cases b with
  | false => simpa using hb
  | true => simpa [bell, or_imp, forall_and] using hb

structure Current (h : Host) (out : String) : Prop where
  drawn_eq : h.drawn = some (h.session.machine.screen.revision, statusText h.session)
  shown : ShownLast out (screenText h.session)

theorem Current.of_eq (hc : h.Current out)
    (hs : h'.session.machine.screen = h.session.machine.screen)
    (ht : statusText h'.session = statusText h.session) (hd : h'.drawn = h.drawn) :
    h'.Current out where
  drawn_eq := by rw [hd, hc.drawn_eq, hs, ht]
  shown := by
    rw [screenText_congr hs ht]
    exact hc.shown

theorem current_draw (h : Host) (out : String) :
    (h.draw true).1.Current (out ++ (h.draw true).2.out) :=
  ⟨rfl, shownLast_append out _⟩

/-- The one place where a screen may stay undrawn. -/
theorem Current.frame (hc : h.Current out) : h.onFrame.1.Current (out ++ h.onFrame.2.out) := by
  rw [onFrame_eq, onFrame_out, ← String.append_assoc]
  generalize (0 < h.framed.sound && h.soundBefore == 0) = rings
  have hl := h.session.runFrame_later
  by_cases hd : h.framed.drawn =
      some (h.framed.session.machine.screen.revision, statusText h.framed.session)
  · have hn : h.framed.draw false = (h.framed, .empty) := by simp [draw, hd]
    have he := hd.symm.trans hc.drawn_eq
    rw [Option.some.injEq, Prod.mk.injEq] at he
    have hs : h.framed.session.machine.screen = h.session.machine.screen := hl.eq_of_eq he.1
    have hf : h.framed.Current out := hc.of_eq hs he.2 rfl
    rw [hn, show Report.empty.out = "" from rfl, String.append_empty]
    exact ⟨hf.drawn_eq, hf.shown.ring rings⟩
  · have hn : h.framed.draw false = h.framed.draw true := by simp [draw, hd]
    rw [hn]
    exact current_draw _ _

theorem Current.hold (hc : h.Current out) (name : String) : (h.hold name).Current out := by
  cases hk : Keyboard.keyFor? name with
  | none =>
    rw [hold_of_none hk]
    exact hc
  | some key =>
    obtain ⟨keypad, hs⟩ := h.session.setKey_eq name true
    rw [hold_of_some hk, Session.press, hs]
    exact hc.of_eq rfl rfl rfl

theorem Current.wait (hc : h.Current out) (ms : Int) : (h.onWait ms).Current out := by
  have hr := Session.release_all_eq (h.held.partition (·.due ≤ h.clock + ms)).1 h.session
  obtain ⟨keypad, hs⟩ := hr
  simp only [onWait, hs]
  exact hc.of_eq rfl rfl rfl

theorem Current.act (hc : h.Current out) (a : HostAction) (he : (h.act a).2.exit = none) :
    (h.act a).1.Current (out ++ (h.act a).2.out) := by
  have hq : out ++ Report.empty.out = out := String.append_empty
  cases a with
  | frame => exact hc.frame
  | wait ms =>
    simp only [Host.act, hq]
    exact hc.wait ms
  | key name =>
    cases name with
    | half u =>
      simp only [Host.act, onKey, hq]
      exact hc
    | text name =>
      simp only [Host.act, onKey] at he ⊢
      cases hk : Keyboard.commandFor? name with
      | none =>
        simp only [hq]
        exact hc.hold name
      | some c =>
        simp only [hk] at he ⊢
        rw [Report.out_append (Report.exit_left_of_append he), ← String.append_assoc]
        exact current_draw _ _

theorem Current.inTurn (hc : h.Current out) (he : (inTurn Host.act h as).2.exit = none) :
    (inTurn Host.act h as).1.Current (out ++ (inTurn Host.act h as).2.out) := by
  induction as using List.reverseRecOn with
  | nil =>
    rw [show (Host.inTurn Host.act h []).2.out = "" from rfl, String.append_empty]
    exact hc
  | append_singleton as a ih =>
    obtain ⟨hs, ha, heq⟩ := inTurn_concat h as a he
    rw [heq, Report.out_append hs, ← String.append_assoc]
    exact (ih hs).act a ha

theorem current_start {r : Report} (hs : start i interactive = (some h, r)) : h.Current r.out := by
  unfold start at hs
  split at hs
  · cases hs
  dsimp only at hs
  split at hs
  · cases hs
  split at hs
  · cases hs
  · cases hs
    rw [Report.out_append rfl]
    exact current_draw _ _

theorem current_of_written (hw : Written i interactive h out) : h.Current out := by
  induction hw with
  | start hs => exact current_start hs
  | @event h out hw files e he ih =>
    rw [handle_eq_inTurn] at he ⊢
    have hc : { h with files := files }.Current out := ih.of_eq rfl rfl rfl
    exact hc.inTurn he

/-- Whatever has happened, what was written last shows the frame, the status and the switches of the
session as they are now. -/
theorem displays_screen (hw : Written i interactive h out) :
    ShownLast out (shownText h.session) := by
  rw [← screenText_eq]
  exact (current_of_written hw).shown

/-- A program that lights one pixel, and whose file is gone when it is to start again. After that
the first switch is turned on. -/
theorem shown_before_and_after_lost_program :
    ∃ h₁ out₁ h₂ out₂,
      Written (.ofProgram #[0x60, 0x01, 0xF0, 0x29, 0xD1, 0x21, 0x12, 0x06]) true h₁ out₁ ∧
      Written (.ofProgram #[0x60, 0x01, 0xF0, 0x29, 0xD1, 0x21, 0x12, 0x06]) true h₂ out₂ ∧
      Picture.glyphAt (Picture.lines h₁.session.machine.screen.frame) 2 0 = some '▀' ∧
      ShownLast out₁ (layout (Picture.lines h₁.session.machine.screen.frame) "Now running rom.ch8"
        ["F1 Shifts use VY: off", "F2 BNNN uses VX: off", "F3 FX changes I: off"]) ∧
      ShownLast out₂ (layout (List.replicate 16 (String.ofList (List.replicate 64 ' ')))
        "ROM not found: rom.ch8"
        ["F1 Shifts use VY: on", "F2 BNNN uses VX: off", "F3 FX changes I: off"]) := by
  let after (h : Host) (files : FileTable) (e : HostEvent) : Host × Report :=
    { h with files := files }.handle e
  let first (h : Host) := after h h.files (.frames 1)
  let second (h : Host) := after (first h).1 (fun _ ↦ none) (.input "\x1b[15~\x1bOP")
  obtain ⟨h, hs, hp⟩ : ∃ h,
      (start (.ofProgram #[0x60, 0x01, 0xF0, 0x29, 0xD1, 0x21, 0x12, 0x06]) true).1 = some h ∧
      decide (((first h).2.exit = none ∧ (second h).2.exit = none) ∧
        ((first h).1.session.machine.screen.frame.pixel 2 0 = true ∧
          (first h).1.session.machine.screen.frame.pixel 2 1 = false ∧
          (first h).1.session.status = "Now running rom.ch8" ∧
          (first h).1.session.dialect = ⟨0⟩) ∧
        (second h).1.session.machine.screen.frame.toList = Frame.blank.toList ∧
        (second h).1.session.status = "ROM not found: rom.ch8" ∧
        (second h).1.session.dialect = ⟨1⟩) = true :=
    (Option.any_eq_true _ _).mp (by decide +kernel)
  obtain ⟨⟨he₁, he₂⟩, ⟨hupper, hlower, hst₁, hd₁⟩, hframe, hst₂, hd₂⟩ := of_decide_eq_true hp
  have hw₁ := (Written.start (Prod.ext hs rfl)).event h.files (.frames 1) he₁
  have hw₂ := hw₁.event (fun _ ↦ none) (.input "\x1b[15~\x1bOP") he₂
  have hglyph := Picture.glyphAt_lines (first h).1.session.machine.screen.frame
    (show 2 < 64 by decide) (show 0 < 16 by decide)
  have hshown₁ := displays_screen hw₁
  have hshown₂ := displays_screen hw₂
  rw [hupper, hlower] at hglyph
  rw [shownText, hst₁, hd₁] at hshown₁
  rw [shownText, hst₂, hd₂, Vector.toList_inj.mp hframe, Picture.lines_blank] at hshown₂
  exact ⟨_, _, _, _, hw₁, hw₂, hglyph, hshown₁, hshown₂⟩

end Host

end Chip8
