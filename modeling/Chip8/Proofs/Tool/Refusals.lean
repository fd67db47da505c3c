import Chip8.Proofs.Rom.Splits
import Chip8.Tool.Report

namespace Chip8

def FileCall.makes : FileCall → Bool
  | .mkdir _ | .create _ => true
  | _ => false

namespace FileEntry

variable {f : FileEntry} {path : String} {calls : List FileCall} {r : Except LoadError Image}
  {image : Image} {c : FileCall}

theorem Opened.size_le (h : f.Opened path calls (.ok image)) : image.size ≤ 3584 := by
  cases h with
  | sized hs hr hz hl ht =>
    cases ht with
    | whole h hs =>
      have hd := h.size_extract
      rw [hs] at hd
      omega

theorem makes_of_mem_readCalls {size k : Nat} {ns : List Nat} (hc : c ∈ readCalls size ns k) :
    c.makes = false := by
  obtain ⟨j, -, rfl⟩ := List.mem_map.mp hc
  rfl

theorem Opened.makes_eq (h : f.Opened path calls r) (hc : c ∈ calls) : c.makes = false := by
  cases h with
  | sized hs hr hz hl ht =>
    rcases List.mem_cons.mp hc with rfl | hc
    · rfl
    · cases ht <;> exact makes_of_mem_readCalls hc
  | _ =>
    rw [List.mem_singleton.mp hc]
    rfl

end FileEntry

namespace FileTable

variable {files : FileTable} {path : String} {image : Image} {c : FileCall}

theorem size_le_of_readProgram (h : (files.readProgram path).2 = .ok image) : image.size ≤ 3584 := by
  cases hf : files path with
  | none =>
    rw [readProgram, hf] at h
    cases h
  | some f =>
    cases ho : f.openFailure with
    | some e =>
      rw [readProgram_of_refused hf ho] at h
      cases h
    | none =>
      rw [readProgram_of_open hf ho] at h
      have hopened := f.opened path
      rw [show (f.readOpened path).2 = .ok image from h] at hopened
      exact hopened.size_le

theorem makes_of_mem_readProgram (hc : c ∈ (files.readProgram path).1) : c.makes = false := by
  cases hf : files path with
  | none =>
    rw [readProgram, hf, List.mem_singleton] at hc
    rw [hc]
    rfl
  | some f =>
    cases ho : f.openFailure with
    | some e =>
      rw [readProgram_of_refused hf ho, List.mem_singleton] at hc
      rw [hc]
      rfl
    | none =>
      rw [readProgram_of_open hf ho, List.cons_append, List.mem_cons, List.mem_append,
        List.mem_singleton] at hc
      rcases hc with rfl | hc | rfl
      · rfl
      · exact (f.opened path).makes_eq hc
      · rfl

end FileTable

namespace Report

variable {a b : Report} {code : Nat}

def refusal (calls : List FileCall) (line : String) (code : Nat) : Report where
  out := ""
  err := line ++ "\n"
  exit := some code
  calls := calls
  terminal := []
  written := []

theorem warn_exitWith (line : String) (code : Nat) :
    (.warn line ++ .exitWith code : Report) = refusal [] line code := by
  change andThen (.warn line) (.exitWith code) = _
  simp [andThen, warn, exitWith, empty, refusal]

theorem call_warn_exitWith (calls : List FileCall) (line : String) (code : Nat) :
    (.call calls ++ .warn line ++ .exitWith code : Report) = refusal calls line code := by
  change andThen (andThen (.call calls) (.warn line)) (.exitWith code) = _
  simp [andThen, call, warn, exitWith, empty, refusal]

theorem exit_ne_of_none (h : a.exit = none) : a.exit ≠ some code := by
  rw [h]
  exact (Option.some_ne_none code).symm

theorem exit_append_ne (ha : a.exit ≠ some code) (hb : b.exit ≠ some code) :
    (a ++ b).exit ≠ some code := by
  change (andThen a b).exit ≠ some code
  rw [andThen]
  split
  · exact ha
  · exact hb

end Report

inductive Refusal
  | noPath
  | notLoaded (e : LoadError)
  deriving DecidableEq, Repr

namespace Invocation

def refusal? (i : Invocation) (s : Settings) : Option Refusal :=
  if (s.rom.getD "").isEmpty then some .noPath
  else
    match (i.files.readProgram (s.rom.getD "")).2 with
    | .error e => some (.notLoaded e)
    | .ok _ => none

theorem settings_eq {i : Invocation} {s : Settings} (h : Settings.ofArguments i.args i.env = .ok s)
    (usage : String) :
    i.settings usage =
      if (s.rom.getD "").isEmpty then .error (.refusal [] usage 2) else .ok (s, s.rom.getD "") := by
  cases hr : s.rom with
  | none => simp [settings, h, hr, Report.warn_exitWith]
  | some path => simp [settings, h, hr, Report.warn_exitWith]

def callsBefore (i : Invocation) (s : Settings) : Refusal → List FileCall
  | .noPath => []
  | .notLoaded _ => (i.files.readProgram (s.rom.getD "")).1

inductive Starts (i : Invocation) (s : Settings) : Option Refusal → Prop
  | noPath (hp : (s.rom.getD "").isEmpty = true) : Starts i s (some .noPath)
  | notLoaded (hp : (s.rom.getD "").isEmpty = false) {calls : List FileCall} {e : LoadError}
      (hr : i.files.readProgram (s.rom.getD "") = (calls, .error e)) : Starts i s (some (.notLoaded e))
  | loaded (hp : (s.rom.getD "").isEmpty = false) {calls : List FileCall} {image : Image}
      (hr : i.files.readProgram (s.rom.getD "") = (calls, .ok image))
      (hsize : image.size ≤ Memory.programLimit) : Starts i s none

theorem starts (i : Invocation) (s : Settings) : i.Starts s (i.refusal? s) := by
  rw [refusal?]
  cases hp : (s.rom.getD "").isEmpty with
  | true => exact .noPath hp
  | false =>
    have hsize := @FileTable.size_le_of_readProgram i.files (s.rom.getD "")
    cases hr : i.files.readProgram (s.rom.getD "") with
    | mk calls r =>
      rw [hr] at hsize
      cases r with
      | error e => exact .notLoaded hp hr
      | ok image => exact .loaded hp hr (hsize rfl)

end Invocation

end Chip8
