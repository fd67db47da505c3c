import Chip8.Proofs.Run.Pace
import Chip8.Proofs.Session.CleanStart
import Chip8.Proofs.Terminal.Moments
import Chip8.Proofs.Tool.Refusals
import Chip8.Tool.Capture
import Chip8.Tool.Tracer

namespace Chip8

inductive Tool
  | runner
  | tracer
  | capture
  | host
  deriving DecidableEq, Repr

namespace Tool

def usage : Tool → String
  | runner => Runner.usage
  | tracer => Tracer.usage
  | capture => Capture.usage
  | host => Host.usage

def reports (t : Tool) (i : Invocation) (interactive : Bool) (es : List HostEvent) : List Report :=
  match t with
  | runner => [Runner.run i]
  | tracer => [Tracer.run i]
  | capture => [Capture.run i]
  | host => (Host.start i interactive).2 :: ((Host.start i interactive).1.elim [] fun h ↦ h.run es)

def refusalLine (t : Tool) : Refusal → String
  | .noPath => t.usage
  | .notLoaded e => e.description

/-- The terminal host takes a program that cannot be loaded for any other failure. -/
def refusalCode (t : Tool) : Refusal → Nat
  | .noPath => 2
  | .notLoaded _ => if t = host then 1 else 2

def Settles (t : Tool) (i : Invocation) (s : Settings) (rs : List Report) : Option Refusal → Prop
  | some c => rs = [.refusal (i.callsBefore s c) (t.refusalLine c) (t.refusalCode c)]
  | none => ∀ r ∈ rs, r.exit ≠ some 2

end Tool

section

variable {i : Invocation} {s : Settings} {o : Option Refusal}

theorem Tool.settles_of_body {t : Tool} {r : Report} {body : Settings → String → Report}
    (ht : t ≠ .host) (hs : Settings.ofArguments i.args i.env = .ok s) (ho : i.Starts s o)
    (hr : r = match i.settings t.usage with
      | .error r => r
      | .ok (s, path) => body s path)
    (hfails : ∀ calls e, i.files.readProgram (s.rom.getD "") = (calls, .error e) →
      body s (s.rom.getD "") = .refusal calls e.description 2)
    (hruns : ∀ calls image, i.files.readProgram (s.rom.getD "") = (calls, .ok image) →
      image.size ≤ Memory.programLimit → (body s (s.rom.getD "")).exit ≠ some 2) :
    t.Settles i s [r] o := by
  rw [Invocation.settings_eq hs] at hr
  cases ho with
  | noPath hp =>
    rw [if_pos hp] at hr
    rw [Settles, hr]
    rfl
  | notLoaded hp hread =>
    simp only [hp, Bool.false_eq_true, ↓reduceIte] at hr
    simp only [Settles, hr, hfails _ _ hread, Invocation.callsBefore, hread, refusalLine, refusalCode,
      ht, ↓reduceIte]
  | loaded hp hread hsize =>
    simp only [hp, Bool.false_eq_true, ↓reduceIte] at hr
    rw [Settles, hr, List.forall_mem_singleton]
    exact hruns _ _ hread hsize

theorem Runner.exit_report_ne (path : String) (r : Run.Report) : (report path r).exit ≠ some 2 := by
  rw [report]
  refine Report.exit_append_ne (Report.exit_ne_of_none rfl) ?_
  cases r.stop with
  | fault o => exact (by decide : some 1 ≠ some 2)
  | loop | timeout => exact (by decide : some 0 ≠ some 2)

theorem Runner.settles (hs : Settings.ofArguments i.args i.env = .ok s) (ho : i.Starts s o) :
    Tool.runner.Settles i s [run i] o := by
  refine Tool.settles_of_body nofun hs ho rfl (fun calls e hr ↦ ?_) (fun calls image hr hsize ↦ ?_)
  · simp only [hr, Report.call_warn_exitWith]
  · simp only [hr, Run.program_of_le _ _ _ _ hsize]
    exact Report.exit_append_ne (Report.exit_ne_of_none rfl) (exit_report_ne _ _)

theorem Tracer.exit_report_ne (t : Traced) : (report t).exit ≠ some 2 := by
  rw [report]
  refine Report.exit_append_ne (Report.exit_ne_of_none rfl) ?_
  cases t.fault with
  | some o => exact Report.exit_append_ne (Report.exit_ne_of_none rfl) (by decide)
  | none => exact Report.exit_ne_of_none rfl

theorem Tracer.settles (hs : Settings.ofArguments i.args i.env = .ok s) (ho : i.Starts s o) :
    Tool.tracer.Settles i s [run i] o := by
  refine Tool.settles_of_body nofun hs ho rfl (fun calls e hr ↦ ?_) (fun calls image hr hsize ↦ ?_)
  · simp only [hr, Report.call_warn_exitWith]
  · simp only [hr, Machine.load_of_le _ hsize]
    exact Report.exit_append_ne (Report.exit_ne_of_none rfl) (exit_report_ne _)

theorem Capture.exit_write_ne (files : FileTable) (path : String) (image : Raster) :
    (write files path image).exit ≠ some 2 := by
  have hf (f : Failure) : (.warn f.report ++ .exitWith 1 : Report).exit ≠ some 2 :=
    Report.exit_append_ne (Report.exit_ne_of_none rfl) (by decide)
  rw [write]
  dsimp only
  split
  · exact Report.exit_append_ne (Report.exit_ne_of_none rfl) (hf _)
  · split
    · exact Report.exit_append_ne (Report.exit_ne_of_none rfl) (hf _)
    · exact Report.exit_append_ne (Report.exit_ne_of_none rfl) (Report.exit_ne_of_none rfl)

theorem Capture.exit_take_ne (i : Invocation) (settings : Settings) (rom : String) (session : Session) :
    (take i settings rom session).exit ≠ some 2 := by
  rw [take]
  refine Report.exit_append_ne ?_ (exit_write_ne _ _ _)
  split <;> exact Report.exit_ne_of_none rfl

theorem Session.load_error (s : Session) (path : String) (e : LoadError) :
    s.load path (.error e) = ({ s with status := e.description }, .error e) := rfl

theorem Capture.settles (hs : Settings.ofArguments i.args i.env = .ok s) (ho : i.Starts s o) :
    Tool.capture.Settles i s [run i] o := by
  refine Tool.settles_of_body nofun hs ho rfl (fun calls e hr ↦ ?_) (fun calls image hr hsize ↦ ?_)
  · simp only [hr, Session.load_error, Report.call_warn_exitWith]
  · simp only [hr, Session.load_of_le _ _ hsize]
    exact Report.exit_append_ne (Report.exit_ne_of_none rfl) (exit_take_ne _ _ _ _)

end

namespace Host

variable {h : Host}

theorem exit_draw_ne (h : Host) (must : Bool) : (h.draw must).2.exit ≠ some 2 := by
  rw [draw]
  split <;> exact Report.exit_ne_of_none rfl

theorem exit_obey_ne (h : Host) (c : HostCommand) : (h.obey c).2.exit ≠ some 2 := by
  cases c with
  | pause | toggle flag => exact Report.exit_ne_of_none rfl
  | quit => exact Report.exit_append_ne (Report.exit_ne_of_none rfl) (by decide)
  | reset =>
    rw [obey, restart]
    dsimp only
    split
    · exact Report.exit_append_ne (Report.exit_ne_of_none rfl) (Report.exit_ne_of_none rfl)
    · exact Report.exit_ne_of_none rfl

theorem exit_onKey_ne (h : Host) (name : KeyName) : (h.onKey name).2.exit ≠ some 2 := by
  cases name with
  | half u => exact Report.exit_ne_of_none rfl
  | text name =>
    rw [onKey]
    split
    · exact Report.exit_ne_of_none rfl
    · exact Report.exit_append_ne (exit_obey_ne _ _) (exit_draw_ne _ _)

theorem exit_onFrame_ne (h : Host) : h.onFrame.2.exit ≠ some 2 := by
  rw [onFrame]
  dsimp only
  refine Report.exit_append_ne (Report.exit_append_ne (Report.exit_ne_of_none rfl) ?_) (exit_draw_ne _ _)
  split <;> exact Report.exit_ne_of_none rfl

theorem exit_act_ne (h : Host) (a : HostAction) : (h.act a).2.exit ≠ some 2 := by
  cases a with
  | key name => exact h.exit_onKey_ne name
  | frame => exact h.exit_onFrame_ne
  | wait ms => exact Report.exit_ne_of_none rfl

theorem exit_inTurn_ne (h : Host) (as : List HostAction) : (inTurn act h as).2.exit ≠ some 2 := by
  induction as using List.reverseRecOn with
  | nil => exact Report.exit_ne_of_none rfl
  | append_singleton as a ih =>
    simp only [inTurn, List.foldl_append, List.foldl_cons, List.foldl_nil] at ih ⊢
    generalize as.foldl _ (h, Report.empty) = p at ih ⊢
    obtain ⟨h', done⟩ := p
    dsimp only
    split
    · exact ih
    · exact Report.exit_append_ne ih (exit_act_ne h' a)

theorem exit_run_ne (h : Host) (es : List HostEvent) : ∀ r ∈ h.run es, r.exit ≠ some 2 := by
  induction es generalizing h with
  | nil => exact nofun
  | cons e es ih =>
    have he : (h.handle e).2.exit ≠ some 2 := by
      rw [handle_eq_inTurn]
      exact exit_inTurn_ne _ _
    intro r hr
    rw [run] at hr
    dsimp only at hr
    split at hr
    · exact List.mem_singleton.mp hr ▸ he
    · rcases List.mem_cons.mp hr with rfl | hr
      · exact he
      · exact ih _ r hr

theorem settles {i : Invocation} {s : Settings} {o : Option Refusal}
    (hs : Settings.ofArguments i.args i.env = .ok s) (ho : i.Starts s o) (interactive : Bool)
    (es : List HostEvent) : Tool.host.Settles i s (Tool.host.reports i interactive es) o := by
  rw [Tool.reports, start, hs]
  cases ho with
  | noPath hp =>
    simp only [hp, ↓reduceIte, Report.warn_exitWith, Tool.Settles, Invocation.callsBefore]
    rfl
  | notLoaded hp hr =>
    simp only [hp, hr, Bool.false_eq_true, ↓reduceIte, Session.load_error,
      Report.call_warn_exitWith, Tool.Settles, Invocation.callsBefore]
    rfl
  | loaded hp hr hsize =>
    simp only [hp, hr, Bool.false_eq_true, ↓reduceIte, Session.load_of_le _ _ hsize, Tool.Settles,
      Option.elim_some]
    intro r hr
    rcases List.mem_cons.mp hr with rfl | hr
    · refine Report.exit_append_ne (Report.exit_append_ne (Report.exit_append_ne ?_ ?_) ?_)
        (exit_draw_ne _ _)
      all_goals exact Report.exit_ne_of_none rfl
    · exact exit_run_ne _ es r hr

end Host

namespace Tool

variable {i : Invocation} {s : Settings} {c : Refusal}

theorem settles (t : Tool) (hs : Settings.ofArguments i.args i.env = .ok s) (interactive : Bool)
    (es : List HostEvent) : t.Settles i s (t.reports i interactive es) (i.refusal? s) := by
  have hi := i.starts s
  cases t with
  | runner => exact Runner.settles hs hi
  | tracer => exact Tracer.settles hs hi
  | capture => exact Capture.settles hs hi
  | host => exact Host.settles hs hi interactive es

theorem makes_of_mem_callsBefore {call : FileCall} (h : call ∈ i.callsBefore s c) :
    call.makes = false := by
  cases c with
  | noPath => cases h
  | notLoaded e => exact FileTable.makes_of_mem_readProgram h

theorem refusalCode_eq_two_iff (t : Tool) (c : Refusal) :
    t.refusalCode c = 2 ↔ (t = host → c = .noPath) := by
  cases c with
  | noPath => simp [refusalCode]
  | notLoaded e => simp [refusalCode]

/-- A program that accepts its settings exits with 2 exactly if there is no path or the program
cannot be loaded, the terminal host only if there is no path. Then, and where the host exits with 1
for a program that cannot be loaded, the usage or the load error is all that is written, and no file
is made. -/
theorem code_two_iff_refused (t : Tool) (i : Invocation) (s : Settings) (interactive : Bool)
    (es : List HostEvent) (hs : Settings.ofArguments i.args i.env = .ok s) :
    ((∃ r ∈ t.reports i interactive es, r.exit = some 2) ↔
        ∃ c, i.refusal? s = some c ∧ (t = host → c = .noPath)) ∧
      ∀ c, i.refusal? s = some c → ∃ calls, (∀ call ∈ calls, call.makes = false) ∧
        t.reports i interactive es =
          [{ out := "", err := t.refusalLine c ++ "\n", exit := some (t.refusalCode c), calls := calls,
             terminal := [], written := [] }] := by
  have h := t.settles hs interactive es
  cases hc : i.refusal? s with
  | none =>
    rw [hc] at h
    refine ⟨⟨?_, nofun⟩, nofun⟩
    rintro ⟨r, hr, he⟩
    exact absurd he (h r hr)
  | some c =>
    rw [hc] at h
    rw [show t.reports i interactive es = _ from h]
    constructor
    · simp [Report.refusal, refusalCode_eq_two_iff]
    · intro c' hc'
      cases hc'
      exact ⟨_, fun call ↦ makes_of_mem_callsBefore, rfl⟩

def tooLong : Invocation where
  args := ["big.ch8"]
  env _ := none
  files path :=
    if path = "big.ch8" then some ⟨#[], 3585, true, none, none, none, [], none, none⟩ else none
  random := .cycle []

theorem too_long_program_refused :
    ∃ s, Settings.ofArguments tooLong.args tooLong.env = .ok s ∧
      (∃ r ∈ capture.reports tooLong false [], r.exit = some 2) ∧
      ∃ calls, capture.reports tooLong false [] =
        [{ out := "", err := "ROM is 3585 bytes; at most 3584 fit in memory\n", exit := some 2,
           calls := calls, terminal := [], written := [] }] := by
  have hs : Settings.ofArguments tooLong.args tooLong.env =
      .ok ⟨some "big.ch8", 700, ⟨0⟩, 10, 1000, 60, none, false⟩ := rfl
  have hc : tooLong.refusal? ⟨some "big.ch8", 700, ⟨0⟩, 10, 1000, 60, none, false⟩ =
      some (.notLoaded (.tooLarge 3585 3584)) := by decide +kernel
  have hline : (capture.refusalLine (.notLoaded (.tooLarge 3585 3584))) ++ "\n" =
      "ROM is 3585 bytes; at most 3584 fit in memory\n" := by decide +kernel
  obtain ⟨htwo, hquiet⟩ := code_two_iff_refused capture tooLong _ false [] hs
  obtain ⟨calls, -, hreports⟩ := hquiet _ hc
  rw [hline] at hreports
  exact ⟨_, hs, htwo.mpr ⟨_, hc, nofun⟩, calls, hreports⟩

def missing : Invocation where
  args := ["missing.ch8"]
  env _ := none
  files _ := none
  random := .cycle []

/-- The terminal host exits with 1 where there is a path, but no file. -/
theorem missing_program_ends_host_with_one :
    ∃ s, Settings.ofArguments missing.args missing.env = .ok s ∧
      missing.refusal? s = some (.notLoaded (.notFound "missing.ch8")) ∧
      (host.reports missing false []).map Report.exit = [some 1] ∧
      ¬((∃ r ∈ host.reports missing false [], r.exit = some 2) ↔ ∃ c, missing.refusal? s = some c) := by
  have hs : Settings.ofArguments missing.args missing.env =
      .ok ⟨some "missing.ch8", 700, ⟨0⟩, 10, 1000, 60, none, false⟩ := rfl
  have hc : missing.refusal? ⟨some "missing.ch8", 700, ⟨0⟩, 10, 1000, 60, none, false⟩ =
      some (.notLoaded (.notFound "missing.ch8")) := by decide +kernel
  have h := host.settles hs false []
  rw [hc] at h
  have hr : host.reports missing false [] = _ := h
  refine ⟨_, hs, hc, by rw [hr]; rfl, fun hiff ↦ ?_⟩
  obtain ⟨r, hm, he⟩ := hiff.mpr ⟨_, hc⟩
  rw [hr, List.mem_singleton] at hm
  rw [hm] at he
  cases he

end Tool

end Chip8
