import Mathlib.Data.List.Infix
import Chip8.Settings
import Chip8.Proofs.Dialect.Names
import Chip8.Proofs.Number.Decimal

namespace Chip8

inductive Setting
  | rom
  | hz
  | dialect
  | scale
  | maxSteps
  | frames
  | out
  | trace
  deriving DecidableEq, Repr

namespace Setting

def variableName : Setting → String
  | rom => "ROM"
  | hz => "CHIP8_CPU_HZ"
  | dialect => "CHIP8_QUIRKS"
  | scale => "CHIP8_SCALE"
  | maxSteps => "TRACE_MAX"
  | frames => "CHIP8_FRAMES"
  | out => "CHIP8_OUT"
  | trace => "TRACE_CHIP8"

def option : Setting → String
  | rom => "--rom="
  | hz => "--hz="
  | dialect => "--quirks="
  | scale => "--scale="
  | maxSteps => "--max="
  | frames => "--frames="
  | out => "--out="
  | trace => "--trace"

/-- What an argument says of a setting: an option its value, `--trace` what its variable would have
to say, and a text without two hyphens in front the program. -/
def given? (s : Setting) (arg : String) : Option String :=
  match s with
  | trace => if arg = "--trace" then some "1" else none
  | rom =>
    if (Argument.valueAfter? "--" arg).isNone then some arg else Argument.valueAfter? "--rom=" arg
  | s => Argument.valueAfter? s.option arg

def last? (s : Setting) (args : List String) : Option String := args.reverse.findSome? s.given?

def text? (s : Setting) (args : List String) (env : String → Option String) : Option String :=
  (s.last? args).or ((env s.variableName).filter (· ≠ ""))

end Setting

namespace Argument

variable {start arg t : String} {s s' : Setting}

theorem valueAfter?_eq_some_iff : valueAfter? start arg = some t ↔ arg = start ++ t := by
  rw [valueAfter?]
  constructor
  · intro h
    split at h
    · next hp =>
      have hl := List.prefix_iff_eq_append.mp (List.isPrefixOf_iff_prefix.mp hp)
      rw [← Option.some.inj h, ← String.toList_inj, String.toList_append, String.toList_ofList]
      exact hl.symm
    · cases h
  · rintro rfl
    have hp : start.toList.isPrefixOf (start ++ t).toList = true := by
      rw [String.toList_append, List.isPrefixOf_iff_prefix]
      exact List.prefix_append _ _
    rw [if_pos hp, String.toList_append, ← String.length_toList, List.drop_left,
      String.ofList_toList]

theorem prefix_of_valueAfter? (h : valueAfter? start arg = some t) : start.toList <+: arg.toList := by
  rw [valueAfter?_eq_some_iff.mp h, String.toList_append]
  exact List.prefix_append _ _

def withValue : List Setting :=
  [.rom, .hz, .dialect, .scale, .maxSteps, .frames, .out]

def giving : Setting → String → Argument
  | .rom => rom
  | .hz => hz
  | .dialect => dialect
  | .scale => scale
  | .maxSteps => maxSteps
  | .frames => frames
  | .out => out
  | .trace => fun _ ↦ trace

def gives : Argument → Setting → Option String
  | rom t, .rom | hz t, .hz | dialect t, .dialect | scale t, .scale | maxSteps t, .maxSteps
  | frames t, .frames | out t, .out => some t
  | trace, .trace => some "1"
  | _, _ => none

theorem findSome?_valued (arg : String) :
    valued.findSome? (fun (start, make) ↦ (valueAfter? start arg).map make) =
      withValue.findSome? fun s ↦ (valueAfter? s.option arg).map (giving s) := by
  have hv : valued = withValue.map fun s ↦ (s.option, giving s) := rfl
  rw [hv, List.findSome?_map]
  rfl

theorem eq_of_option_isPrefix_option (h : s.option.toList <+: s'.option.toList) : s = s' := by
  cases s <;> cases s' <;> first | rfl | exact absurd h (by decide)

theorem eq_of_valueAfter? {t' : String} (h : valueAfter? s.option arg = some t)
    (h' : valueAfter? s'.option arg = some t') : s = s' := by
  rcases List.prefix_or_prefix_of_prefix (prefix_of_valueAfter? h) (prefix_of_valueAfter? h') with hp | hp
  · exact eq_of_option_isPrefix_option hp
  · exact (eq_of_option_isPrefix_option hp).symm

theorem ofString_of_value (hs : s ∈ withValue) (h : valueAfter? s.option arg = some t) :
    ofString arg = giving s t := by
  have hfind : withValue.findSome? (fun s ↦ (valueAfter? s.option arg).map (giving s)) =
      some (giving s t) := by
    obtain ⟨front, back, hl, hfront⟩ := List.eq_append_cons_of_mem hs
    refine List.findSome?_eq_some_iff.mpr ⟨front, s, back, hl, by rw [h, Option.map_some], ?_⟩
    intro s' hs'
    rw [Option.map_eq_none_iff]
    cases h' : valueAfter? s'.option arg with
    | none => rfl
    | some t' => exact absurd (eq_of_valueAfter? h' h ▸ hs') hfront
  rw [ofString, findSome?_valued, hfind]

theorem ofString_of_no_value (h : ∀ s ∈ withValue, valueAfter? s.option arg = none) :
    ofString arg =
      if arg = "--trace" then trace
      else if (valueAfter? "--" arg).isSome then ignored arg
      else rom arg := by
  have hfind : withValue.findSome? (fun s ↦ (valueAfter? s.option arg).map (giving s)) = none :=
    List.findSome?_eq_none_iff.mpr fun s hs ↦ Option.map_eq_none_iff.mpr (h s hs)
  rw [ofString, findSome?_valued, hfind]

theorem gives_giving (hs : s ∈ withValue) (t : String) (s' : Setting) :
    (giving s t).gives s' = if s = s' then some t else none := by
  cases s <;> cases s' <;> first | rfl | exact absurd hs (by decide)

theorem isSome_valueAfter?_iff :
    (valueAfter? start arg).isSome = true ↔ start.toList <+: arg.toList := by
  rw [valueAfter?, ← List.isPrefixOf_iff_prefix]
  split
  · next h => simp [h]
  · next h => simp [h]

theorem isSome_hyphens (h : valueAfter? s.option arg = some t) :
    (valueAfter? "--" arg).isSome = true := by
  have ho : "--".toList <+: s.option.toList := by cases s <;> decide
  exact isSome_valueAfter?_iff.mpr (ho.trans (prefix_of_valueAfter? h))

theorem given?_of_value (hs : s ∈ withValue) (h : valueAfter? s.option arg = some t) (s' : Setting) :
    s'.given? arg = if s = s' then some t else none := by
  have hvalue : valueAfter? s'.option arg = if s = s' then some t else none := by
    split
    · next he => exact he ▸ h
    · next hne =>
      cases h' : valueAfter? s'.option arg with
      | none => rfl
      | some t' => exact absurd (eq_of_valueAfter? h h') hne
  cases s' with
  | rom =>
    have hn : (valueAfter? "--" arg).isNone = false := by
      rw [← Option.not_isSome, isSome_hyphens h]
      rfl
    rw [Setting.given?, hn]
    exact hvalue
  | trace =>
    have ht : s ≠ .trace := by
      rintro rfl
      exact absurd hs (by decide)
    rw [if_neg ht] at hvalue ⊢
    refine if_neg ?_
    rintro rfl
    exact absurd hvalue (by decide)
  | _ => exact hvalue

theorem gives_ofString (arg : String) (s : Setting) : (ofString arg).gives s = s.given? arg := by
  by_cases hv : ∃ s' ∈ withValue, ∃ t, valueAfter? s'.option arg = some t
  · obtain ⟨s', hs', t, ht⟩ := hv
    rw [ofString_of_value hs' ht, gives_giving hs', given?_of_value hs' ht]
  · have hnone : ∀ s' ∈ withValue, valueAfter? s'.option arg = none := fun s' hs' ↦
      Option.eq_none_iff_forall_ne_some.mpr fun t ht ↦ hv ⟨s', hs', t, ht⟩
    rw [ofString_of_no_value hnone]
    by_cases htrace : arg = "--trace"
    · rw [if_pos htrace, htrace]
      cases s <;> rfl
    · rw [if_neg htrace]
      cases hh : valueAfter? "--" arg with
      | none =>
        cases s with
        | rom => simp [gives, Setting.given?, hh]
        | trace => simp [gives, Setting.given?, htrace]
        | _ => exact (hnone _ (by decide)).symm
      | some u =>
        cases s with
        | rom =>
          rw [Setting.given?, hh]
          exact (hnone .rom (by decide)).symm
        | trace => simp [gives, Setting.given?, htrace]
        | _ => exact (hnone _ (by decide)).symm

end Argument

namespace RawSettings

variable {args : List String} {f : Setting → Option String}

def ofTexts (text? : Setting → Option String) : RawSettings where
  rom := text? .rom
  hz := text? .hz
  dialect := (text? .dialect).getD ""
  scale := text? .scale
  maxSteps := text? .maxSteps
  frames := text? .frames
  out := text? .out
  trace := text? .trace == some "1"

theorem apply_ofTexts (f : Setting → Option String) (a : Argument) :
    (ofTexts f).apply a = ofTexts fun s ↦ (a.gives s).or (f s) := by
  cases a <;> rfl

theorem ofEnvironment_eq (env : String → Option String) :
    ofEnvironment env = ofTexts fun s ↦ (env s.variableName).filter (· ≠ "") := rfl

end RawSettings

namespace Setting

variable {s : Setting} {args front back : List String} {arg t : String}

theorem last?_append (s : Setting) (front back : List String) :
    s.last? (front ++ back) = (s.last? back).or (s.last? front) := by
  rw [last?, List.reverse_append, List.findSome?_append]
  rfl

theorem last?_cons (s : Setting) (arg : String) (args : List String) :
    s.last? (arg :: args) = (s.last? args).or (s.given? arg) := by
  have h : s.last? [arg] = s.given? arg := by simp [last?]
  rw [← h]
  exact last?_append s [arg] args

theorem last?_ne_none (ha : arg ∈ args) (h : s.given? arg ≠ none) : s.last? args ≠ none := by
  intro hn
  rw [last?, List.findSome?_eq_none_iff] at hn
  exact h (hn arg (List.mem_reverse.mpr ha))

theorem given?_unique {s' : Setting} (h : s.given? arg ≠ none) (h' : s'.given? arg ≠ none) :
    s = s' := by
  rw [← Argument.gives_ofString] at h h'
  generalize Argument.ofString arg = a at h h'
  cases a <;> cases s <;>
    first
      | exact absurd rfl h
      | cases s' <;> first | rfl | exact absurd rfl h'

theorem last?_swap {a b : String} (h : s.given? a = none ∨ s.given? b = none)
    (front back : List String) :
    s.last? (front ++ a :: b :: back) = s.last? (front ++ b :: a :: back) := by
  simp only [last?_append, last?_cons]
  rcases h with h | h <;> simp only [h, Option.or_none]

theorem last?_delete (h : s.given? arg ≠ none → ∃ b ∈ back, s.given? b ≠ none)
    (front : List String) : s.last? (front ++ arg :: back) = s.last? (front ++ back) := by
  rw [last?_append, last?_cons, last?_append]
  by_cases ha : s.given? arg = none
  · rw [ha, Option.or_none]
  · obtain ⟨b, hb, hg⟩ := h ha
    obtain ⟨t, ht⟩ := Option.ne_none_iff_exists'.mp (last?_ne_none hb hg)
    rw [ht, Option.some_or, Option.some_or]

theorem last?_trace (args : List String) :
    trace.last? args = if "--trace" ∈ args then some "1" else none := by
  induction args with
  | nil => rfl
  | cons arg args ih =>
    rw [last?_cons, ih]
    by_cases hm : "--trace" ∈ args
    · rw [if_pos hm, if_pos (List.mem_cons_of_mem arg hm), Option.some_or]
    · by_cases ha : arg = "--trace" <;> simp [given?, ha, hm, eq_comm]

end Setting

namespace RawSettings

theorem foldl_apply_ofTexts (f : Setting → Option String) (args : List String) :
    (args.map Argument.ofString).foldl apply (ofTexts f) =
      ofTexts fun s ↦ (s.last? args).or (f s) := by
  induction args generalizing f with
  | nil => rfl
  | cons arg args ih =>
    rw [List.map_cons, List.foldl_cons, apply_ofTexts, ih]
    congr 1
    funext s
    rw [Argument.gives_ofString, Setting.last?_cons, Option.or_assoc]

end RawSettings

namespace Settings

open Binary64

variable {args args' : List String} {env : String → Option String} {c : Settings}

theorem ofRaw_eq (r : RawSettings) :
    ofRaw r = (Dialect.ofNames r.dialect).map fun d ↦
      { rom := r.rom
        cpuHz := positive r.hz defaultHz
        dialect := d
        scale := positiveWhole r.scale defaultScale
        maxSteps := positiveWhole r.maxSteps defaultMaxSteps
        frames := positiveWhole r.frames defaultFrames
        out := r.out
        trace := r.trace } := by
  rw [ofRaw]
  cases Dialect.ofNames r.dialect <;> rfl

theorem ofArguments_eq_ofRaw (args : List String) (env : String → Option String) :
    ofArguments args env = ofRaw (.ofTexts fun s ↦ s.text? args env) := by
  rw [ofArguments, RawSettings.ofEnvironment_eq, RawSettings.foldl_apply_ofTexts]
  rfl

theorem ofArguments_congr (h : ∀ s : Setting, s.last? args = s.last? args') :
    ofArguments args env = ofArguments args' env := by
  simp only [ofArguments_eq_ofRaw, Setting.text?, h]

def Usable (q : Rat) : Prop := Finite q ∧ 0 < q

theorem usable_positive (text : Option String) {default : Rat} (h : Usable default) :
    Usable (positive text default) := by
  rw [positive]
  cases hq : text.bind Decimal.leadingNumber? with
  | none => exact h
  | some q =>
    obtain ⟨t, -, ht⟩ := Option.bind_eq_some_iff.mp hq
    by_cases hpos : 0 < q
    · simp only [hpos, ↓reduceIte]
      exact ⟨Decimal.finite_of_leadingNumber? ht, hpos⟩
    · simp only [hpos, ↓reduceIte]
      exact h

theorem usable_positiveWhole (text : Option String) {default : Nat} (h : Usable default) :
    Usable (positiveWhole text default) := by
  rw [positiveWhole]
  cases hq : text.bind Decimal.leadingWhole? with
  | none => exact h
  | some q =>
    obtain ⟨t, -, ht⟩ := Option.bind_eq_some_iff.mp hq
    obtain ⟨hf, w, rfl⟩ := Decimal.finite_of_leadingWhole? ht
    by_cases hpos : (0 : Rat) < w
    · have hw : ((w : Rat).floor.toNat : Int) = w := by
        rw [Rat.floor_intCast]
        exact Int.toNat_of_nonneg (by exact_mod_cast hpos.le)
      have hc : (((w : Rat).floor.toNat : Nat) : Rat) = w := by exact_mod_cast hw
      simp only [hpos, ↓reduceIte, hc]
      exact ⟨hf, hpos⟩
    · simp only [hpos, ↓reduceIte]
      exact h

theorem usable_natCast {n : Nat} (h : 0 < n) (hn : n < 2 ^ 53) : Usable n :=
  ⟨finite_natCast hn, Nat.cast_pos.mpr h⟩

theorem ofArguments_eq (args : List String) (env : String → Option String) :
    ofArguments args env =
      (Dialect.ofNames ((Setting.dialect.text? args env).getD "")).map fun d ↦
        { rom := Setting.rom.text? args env
          cpuHz := positive (Setting.hz.text? args env) 700
          dialect := d
          scale := positiveWhole (Setting.scale.text? args env) 10
          maxSteps := positiveWhole (Setting.maxSteps.text? args env) 1000
          frames := positiveWhole (Setting.frames.text? args env) 60
          out := Setting.out.text? args env
          trace := decide (env "TRACE_CHIP8" = some "1" ∨ "--trace" ∈ args) } := by
  have htrace : (Setting.trace.text? args env == some "1") =
      decide (env "TRACE_CHIP8" = some "1" ∨ "--trace" ∈ args) := by
    rw [Setting.text?, Setting.last?_trace]
    split
    · next hm => simp [hm]
    · next hm =>
      rw [Option.none_or, Bool.eq_iff_iff, beq_iff_eq, decide_eq_true_iff, Option.filter_eq_some_iff]
      simp [Setting.variableName, hm]
  rw [ofArguments_eq_ofRaw, ofRaw_eq]
  simp only [RawSettings.ofTexts, htrace]
  rfl

theorem exists_error_iff :
    (∃ e, ofArguments args env = .error e) ↔
      ∃ p ∈ Dialect.parts ((Setting.dialect.text? args env).getD ""), Dialect.Unknown p := by
  rw [← Dialect.exists_error_iff, ofArguments_eq]
  cases Dialect.ofNames ((Setting.dialect.text? args env).getD "") with
  | error e => simp [Except.map]
  | ok d => simp [Except.map]

theorem usable_of_ofArguments (h : ofArguments args env = .ok c) :
    Usable c.cpuHz ∧ Usable c.scale ∧ Usable c.maxSteps ∧ Usable c.frames := by
  have hn {n : Nat} (h₀ : 0 < n) (hlt : n < 2 ^ 53) := usable_natCast h₀ hlt
  rw [ofArguments_eq] at h
  cases hd : Dialect.ofNames ((Setting.dialect.text? args env).getD "") with
  | error e =>
    rw [hd] at h
    cases h
  | ok d =>
    rw [hd] at h
    cases h
    exact ⟨usable_positive _ (hn (n := 700) (by norm_num) (by norm_num)),
      usable_positiveWhole _ (hn (by norm_num) (by norm_num)),
      usable_positiveWhole _ (hn (by norm_num) (by norm_num)),
      usable_positiveWhole _ (hn (by norm_num) (by norm_num))⟩

/-- Each setting is what the last argument that sets it says, or else the environment, or else a
default. So two arguments for different settings can change places, and one that a later one
overrides, or that sets nothing, can be left out. There are no settings exactly if the list of names
that counts has an unknown part, and the numbers of settings are finite and positive. -/
theorem last_argument_wins (args : List String) (env : String → Option String) :
    ofArguments args env =
        (Dialect.ofNames ((Setting.dialect.text? args env).getD "")).map (fun d ↦
          { rom := Setting.rom.text? args env
            cpuHz := positive (Setting.hz.text? args env) 700
            dialect := d
            scale := positiveWhole (Setting.scale.text? args env) 10
            maxSteps := positiveWhole (Setting.maxSteps.text? args env) 1000
            frames := positiveWhole (Setting.frames.text? args env) 60
            out := Setting.out.text? args env
            trace := decide (env "TRACE_CHIP8" = some "1" ∨ "--trace" ∈ args) }) ∧
      (∀ front a b back, args = front ++ a :: b :: back →
        (∀ s : Setting, s.given? a = none ∨ s.given? b = none) →
          ofArguments args env = ofArguments (front ++ b :: a :: back) env) ∧
      (∀ front a back, args = front ++ a :: back →
        (∃ s : Setting, s.given? a ≠ none ∧ ∃ b ∈ back, s.given? b ≠ none) →
          ofArguments args env = ofArguments (front ++ back) env) ∧
      (∀ front a back, args = front ++ a :: back → (∀ s : Setting, s.given? a = none) →
        ofArguments args env = ofArguments (front ++ back) env) ∧
      ((∃ e, ofArguments args env = .error e) ↔
        ∃ p ∈ Dialect.parts ((Setting.dialect.text? args env).getD ""), Dialect.Unknown p) ∧
      ∀ c, ofArguments args env = .ok c →
        Usable c.cpuHz ∧ Usable c.scale ∧ Usable c.maxSteps ∧ Usable c.frames := by
  refine ⟨ofArguments_eq args env, ?_, ?_, ?_, exists_error_iff, fun c h ↦ usable_of_ofArguments h⟩
  · rintro front a b back rfl h
    exact ofArguments_congr fun s ↦ Setting.last?_swap (h s) front back
  · rintro front a back rfl ⟨s, ha, hb⟩
    refine ofArguments_congr fun s' ↦ Setting.last?_delete (fun ha' ↦ ?_) front
    rw [Setting.given?_unique ha' ha]
    exact hb
  · rintro front a back rfl h
    exact ofArguments_congr fun s ↦ Setting.last?_delete (fun ha ↦ absurd (h s) ha) front

/-- Five arguments, of which the first is overridden and the fourth is not known. The rate is read
from the third, with a fraction, and one of the numbers from the environment, where the other begins
with a zero. -/
theorem overridden_and_unknown_left_out :
    let env : String → Option String := fun name ↦
      if name = "CHIP8_SCALE" then some "0x3" else if name = "TRACE_MAX" then some " 250 steps" else none
    ofArguments ["--quirks=turbo", "a.ch8", "--hz=540.5fps", "--warp=9", "--quirks=fx-i"] env =
        ofArguments ["--hz=540.5fps", "a.ch8", "--quirks=fx-i"] env ∧
      ∃ c, ofArguments ["--hz=540.5fps", "a.ch8", "--quirks=fx-i"] env = .ok c ∧
        c.rom = some "a.ch8" ∧ c.cpuHz = 1081 / 2 ∧ c.dialect = ⟨4⟩ ∧ c.scale = 10 ∧
        c.maxSteps = 250 ∧ Usable c.cpuHz ∧ Usable c.maxSteps := by
  intro env
  obtain ⟨-, -, hoverridden, -⟩ := last_argument_wins
    ["--quirks=turbo", "a.ch8", "--hz=540.5fps", "--warp=9", "--quirks=fx-i"] env
  obtain ⟨-, -, -, hunknown, -⟩ := last_argument_wins
    ["a.ch8", "--hz=540.5fps", "--warp=9", "--quirks=fx-i"] env
  obtain ⟨-, hswap, -⟩ := last_argument_wins ["a.ch8", "--hz=540.5fps", "--quirks=fx-i"] env
  obtain ⟨hread, -, -, -, -, husable⟩ := last_argument_wins
    ["--hz=540.5fps", "a.ch8", "--quirks=fx-i"] env
  have h₁ := hoverridden [] _ _ rfl ⟨.dialect, by decide, "--quirks=fx-i", by decide, by decide⟩
  have h₂ := hunknown ["a.ch8", "--hz=540.5fps"] _ _ rfl (by intro s; cases s <;> decide)
  have h₃ := hswap [] _ _ ["--quirks=fx-i"] rfl (by intro s; cases s <;> decide)
  have hnames : Dialect.ofNames "fx-i" = .ok ⟨4⟩ := Dialect.ofNames_eq_ok_iff.mpr (by decide +kernel)
  have htext : (Setting.dialect.text? ["--hz=540.5fps", "a.ch8", "--quirks=fx-i"] env).getD "" = "fx-i" := by
    decide +kernel
  rw [htext, hnames] at hread
  obtain ⟨hhz, -, hmax, -⟩ := husable _ hread
  refine ⟨h₁.trans (h₂.trans h₃), _, hread, ?_, ?_, rfl, ?_, ?_, hhz, hmax⟩
  · decide +kernel
  · decide +kernel
  · decide +kernel
  · decide +kernel

end Settings

end Chip8
