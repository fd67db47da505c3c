import Chip8.Rom.Reading
import Chip8.Proofs.Rom.Splits

namespace Chip8

namespace Reading

variable {data got buffer bytes : Image} {size offset position wanted n : Nat} {s : Reading}
  {calls : List FileCall} {path : String} {f : FileEntry} {e : Failure}

theorem size_overwrite (h : offset + bytes.size ≤ buffer.size) :
    (overwrite buffer offset bytes).size = buffer.size := by
  simp only [overwrite, Array.size_append, Array.size_extract]
  omega

theorem extract_overwrite (bytes : Image) (hgot : buffer.extract 0 got.size = got) :
    (overwrite buffer got.size bytes).extract 0 (got ++ bytes).size = got ++ bytes := by
  rw [overwrite, hgot, Array.extract_append, Array.extract_eq_self_of_le (Nat.le_refl _), Nat.sub_self,
    Array.extract_zero, Array.append_empty]

@[simp] theorem run_call_none (c : FileCall) :
    (call c none).run s = .ok () { s with calls := s.calls ++ [c] } := rfl

@[simp] theorem run_call_some (c : FileCall) :
    (call c (some e)).run s = .error e { s with calls := s.calls ++ [c] } := rfl

theorem run_read_of_ok (h : ReadPlan.deliver wanted (data.size - position) s.plan.head? = .ok n) :
    (read data offset wanted position).run s = .ok n
      ⟨s.plan.tail, overwrite s.buffer offset (data.extract position (position + n)),
        s.calls ++ [.read offset wanted position]⟩ := by
  simp only [read, EStateM.run_bind, run_call_none, EStateM.run_get, EStateM.run_set, h]
  rfl

theorem run_read_of_error (h : ReadPlan.deliver wanted (data.size - position) s.plan.head? = .error e) :
    (read data offset wanted position).run s = .error e
      ⟨s.plan.tail, s.buffer, s.calls ++ [.read offset wanted position]⟩ := by
  simp only [read, EStateM.run_bind, run_call_none, EStateM.run_get, EStateM.run_set, h]
  rfl

inductive Fills (size : Nat) (calls : List FileCall) :
    Except Failure Image → EStateM.Result Failure Reading Nat → Prop
  | done {image : Image} {s : Reading} (hc : s.calls = calls) (hb : s.buffer.size = size)
      (hg : s.buffer.extract 0 image.size = image) : Fills size calls (.ok image) (.ok image.size s)
  | failed {e : Failure} {s : Reading} (hc : s.calls = calls) :
      Fills size calls (.error e) (.error e s)

theorem fills_fill (data got : Image) (hb : s.buffer.size = size)
    (hg : s.buffer.extract 0 got.size = got) :
    Fills size (s.calls ++ (FileEntry.readAll data size s.plan got).1)
      (FileEntry.readAll data size s.plan got).2 ((fill data size got.size).run s) := by
  -- Each read leaves less to read. The buffer keeps its size and starts with what was read so far.
  induction hd : size - got.size using Nat.strongRecOn generalizing s got with
  | ind d ih =>
    rw [fill]
    by_cases h : got.size < size
    · rw [if_pos h, EStateM.run_bind]
      cases ha : ReadPlan.deliver (size - got.size) (data.size - got.size) s.plan.head? with
      | error e =>
        rw [FileEntry.readAll_of_error h ha, run_read_of_error ha]
        exact .failed rfl
      | ok n =>
        have hw := ReadPlan.le_wanted_of_deliver ha
        have hl := ReadPlan.le_of_deliver ha
        let bytes := data.extract got.size (got.size + n)
        have hn : bytes.size = n := by
          rw [Array.size_extract]
          omega
        have hb' : (overwrite s.buffer got.size bytes).size = size := by
          rw [size_overwrite (by omega), hb]
        have hg' := extract_overwrite bytes hg
        rw [run_read_of_ok ha]
        rcases Nat.eq_zero_or_pos n with rfl | hpos
        · rw [FileEntry.readAll_of_zero h ha]
          have hgot : got ++ bytes = got := by
            rw [Array.eq_empty_of_size_eq_zero hn, Array.append_empty]
          rw [hgot] at hg'
          exact .done rfl hb' hg'
        · rw [FileEntry.readAll_of_pos h hpos ha]
          have hsize : (got ++ bytes).size = got.size + n := by rw [Array.size_append, hn]
          have hrest := ih (size - (got ++ bytes).size) (by omega) (got ++ bytes)
            (s := ⟨s.plan.tail, overwrite s.buffer got.size bytes,
              s.calls ++ [FileEntry.readCall size got.size]⟩) hb' hg' rfl
          simp only [if_neg (Nat.ne_of_gt hpos)]
          rw [hsize, List.append_assoc] at hrest
          exact hrest
    · rw [if_neg h, FileEntry.readAll_of_le (Nat.le_of_not_lt h), List.append_nil]
      exact .done rfl hb hg

inductive Completes (path : String) (calls : List FileCall) (r : Except LoadError Image) :
    EStateM.Result Failure Reading (Except LoadError Image) → Prop
  | done {s : Reading} (hc : s.calls = calls) : Completes path calls r (.ok r s)
  | failed {e : Failure} {s : Reading} (hc : s.calls = calls)
      (hr : r = .error (.readFailed path e.message)) : Completes path calls r (.error e s)

theorem run_allocate :
    (allocate (.ofNat size)).run s = .ok size { s with buffer := Array.replicate size 0 } := rfl

theorem completes_transfer (hs : f.statFailure = none) (hr : f.regular = true) (hz : f.size = size)
    (hl : size ≤ 3584) :
    Completes path (calls ++ (f.readOpened path).1) (f.readOpened path).2
      ((transfer path f).run ⟨f.reads, buffer, calls ++ [.stat]⟩) := by
  have hfill := fills_fill f.data #[] (s := ⟨f.reads, Array.replicate size 0, calls ++ [.stat]⟩)
    Array.size_replicate Array.extract_zero
  change Fills size _ _ ((fill f.data size 0).run _) at hfill
  have hz' : f.size = .ofNat size := hz
  rw [transfer, hz', EStateM.run_bind, run_allocate]
  dsimp only
  rw [EStateM.run_bind, FileEntry.readOpened_of_size hs hr hz hl]
  generalize (fill f.data size 0).run _ = out at hfill ⊢
  generalize FileEntry.readAll f.data size f.reads #[] = reads at hfill ⊢
  obtain ⟨reads, r⟩ := reads
  cases hfill with
  | failed hcalls => exact .failed (by rw [hcalls, List.append_assoc]; rfl) rfl
  | @done image s' hcalls hb hg =>
    rw [List.append_assoc] at hcalls
    by_cases hsize : image.size = size
    · have himage : s'.buffer = image := by
        rw [← hg, Array.extract_eq_self_of_le (by omega)]
      simp only [FileEntry.settle, if_pos hsize]
      rw [← himage]
      exact .done hcalls
    · simp only [FileEntry.settle, if_neg hsize]
      exact .done hcalls

theorem completes_contents (path : String) (f : FileEntry) (buffer : Image) (calls : List FileCall) :
    Completes path (calls ++ (f.readOpened path).1) (f.readOpened path).2
      ((contents path f).run ⟨f.reads, buffer, calls⟩) := by
  rw [contents, EStateM.run_bind]
  cases hs : f.statFailure with
  | some e =>
    rw [run_call_some, FileEntry.readOpened, hs]
    exact .failed rfl rfl
  | none =>
    rw [run_call_none]
    cases hr : f.regular with
    | false =>
      rw [FileEntry.readOpened, hs, hr]
      exact .done rfl
    | true =>
      rcases Int.lt_or_le 3584 f.size with hl | hl
      · rw [FileEntry.readOpened, hs, hr, LoadError.checkSize_of_lt hl]
        exact .done rfl
      · rw [LoadError.checkSize_of_le hl]
        simp only [if_true]
        rcases Int.lt_or_le f.size 0 with hz | hz
        · obtain ⟨k, hk⟩ := Int.eq_negSucc_of_lt_zero hz
          rw [FileEntry.readOpened_of_negative hs hr hz, transfer, hk]
          exact .failed rfl rfl
        · obtain ⟨size, hz⟩ := Int.eq_ofNat_of_zero_le hz
          exact completes_transfer hs hr hz (by omega)

theorem run_tryCatch {α : Type} (a : Action α) (handle : Failure → Action α) :
    (tryCatch a handle).run s =
      match a.run s with
      | .ok r s => .ok r s
      | .error e s => (handle e).run s := by
  change EStateM.tryCatch a handle s = _
  unfold EStateM.tryCatch EStateM.run
  cases a s <;> rfl

theorem Completes.run_handled {a : Action (Except LoadError Image)} {r : Except LoadError Image}
    (h : Completes path calls r (a.run s)) :
    ∃ s', (tryCatch a fun e ↦ pure (.error (.readFailed path e.message))).run s = .ok r s' ∧
      s'.calls = calls := by
  rw [run_tryCatch]
  generalize a.run s = out at h ⊢
  cases h with
  | done hc => exact ⟨_, rfl, hc⟩
  | failed hc hr =>
    rw [hr]
    exact ⟨_, rfl, hc⟩

theorem run_program {files : FileTable} (h : files path = some f) (closing : Option Failure) :
    ∃ s, (program path { f with closeFailure := closing }).run (start f) =
        .ok (files.readProgram path).2 s ∧ s.calls = (files.readProgram path).1 := by
  cases ho : f.openFailure with
  | some e =>
    rw [FileTable.readProgram_of_refused h ho]
    simp only [program]
    exact ⟨_, rfl, rfl⟩
  | none =>
    obtain ⟨s, hs, hc⟩ := (completes_contents path f #[] [.openFile path]).run_handled
    rw [FileTable.readProgram_of_open h ho]
    have hopen : (program path { f with openFailure := none, closeFailure := closing }).run (start f) = (do
        let r ← tryCatch (contents path f) fun e ↦ pure (.error (.readFailed path e.message))
        tryCatch (call .close closing) fun _ ↦ pure ()
        return r : Action _).run ⟨f.reads, #[], [.openFile path]⟩ := rfl
    rw [hopen, EStateM.run_bind, hs]
    refine ⟨{ s with calls := s.calls ++ [.close] }, ?_, congrArg (· ++ [.close]) hc⟩
    cases closing <;> rfl

end Reading

def Failure.code? : Failure → Option String
  | .error code _ => code
  | .value _ => none

def Failure.Missing (e : Failure) : Prop := e.code? = some "ENOENT" ∨ e.code? = some "ENOTDIR"

theorem Failure.isMissing_iff (e : Failure) : e.isMissing = true ↔ e.Missing := by
  rcases e with ⟨_ | c, m⟩ | t <;> simp [isMissing, Missing, code?]

namespace FileEntry

variable {f : FileEntry} {path : String} {size : Nat} {calls : List FileCall}
  {r : Except LoadError Image}

/-- The reads of `size` bytes deliver them all, before one of them delivers nothing or fails. -/
def DeliversAll (f : FileEntry) (size : Nat) : Prop := ∃ ns, f.Delivers size ns ∧ ns.sum = size

/-- The calls that are made when a file is read as a program, and what they come to. -/
structure Accounts (f : FileEntry) (path : String) (calls : List FileCall)
    (r : Except LoadError Image) : Prop where
  missing : ∀ e, f.openFailure = some e → e.Missing →
    calls = [.openFile path] ∧ r = .error (.notFound path)
  refused : ∀ e, f.openFailure = some e → ¬e.Missing →
    calls = [.openFile path] ∧ r = .error (.openFailed path e.message)
  closed : f.openFailure = none → ∃ between, calls = .openFile path :: between ++ [.close] ∧
    .close ∉ between ∧ f.Opened path between r
  ends : calls.length ≤ f.size.toNat + 3
  succeeds : f.openFailure = none → f.statFailure = none → f.regular = true →
    ∀ size : Nat, f.size = size → size ≤ 3584 → ∀ image, r = .ok image ↔
      f.DeliversAll size ∧ image.size = size ∧ ∀ k < size, image[k]? = f.data[k]?
  fails : f.openFailure = none → f.statFailure = none → f.regular = true →
    ∀ size : Nat, f.size = size → size ≤ 3584 → ¬f.DeliversAll size →
      ∃ message, r = .error (.readFailed path message)

/-- Whatever the split, a file that delivers all its bytes gives the first of them. -/
theorem readOpened_of_deliversAll (path : String) (hs : f.statFailure = none) (hr : f.regular = true)
    (hz : f.size = size) (hl : size ≤ 3584) (h : f.DeliversAll size) :
    (readOpened path f).2 = .ok (f.data.extract 0 size) ∧ size ≤ f.data.size := by
  obtain ⟨ns, h, hsum⟩ := h
  refine ⟨?_, hsum ▸ h.sum_le.2⟩
  rw [h.readOpened_of_full hsum hs hr hz hl]

theorem Opened.transferred (h : f.Opened path calls r) (hs : f.statFailure = none)
    (hr : f.regular = true) (hz : f.size = size) (hl : size ≤ 3584) :
    ∃ reads, f.Transferred path size reads r := by
  cases h with
  | unknown hs' => cases hs.symm.trans hs'
  | irregular _ hr' => cases hr.symm.trans hr'
  | tooLarge _ _ hz' => omega
  | negative _ _ hz' => omega
  | sized _ _ hz' _ ht =>
    cases Int.ofNat.inj (hz.symm.trans hz')
    exact ⟨_, ht⟩

theorem Transferred.deliversAll (h : f.Transferred path size calls r) :
    f.DeliversAll size ∨ ∃ message, r = .error (.readFailed path message) := by
  cases h with
  | whole h hs => exact .inl ⟨_, h, hs⟩
  | short h hs hn => exact .inr ⟨_, rfl⟩
  | failed h hs he => exact .inr ⟨_, rfl⟩

theorem eq_extract_iff {data image : Image} (h : size ≤ data.size) :
    image = data.extract 0 size ↔ image.size = size ∧ ∀ k < size, image[k]? = data[k]? := by
  constructor
  · rintro rfl
    refine ⟨by rw [Array.size_extract]; omega, fun k hk ↦ ?_⟩
    rw [Array.getElem?_extract, if_pos (by omega), Nat.zero_add]
  · rintro ⟨hs, hk⟩
    refine Array.ext_getElem? fun k ↦ ?_
    rcases Nat.lt_or_ge k size with hlt | hge
    · rw [hk k hlt, Array.getElem?_extract, if_pos (by omega), Nat.zero_add]
    · rw [Array.getElem?_eq_none (by omega), Array.getElem?_eq_none (by rw [Array.size_extract]; omega)]

end FileEntry

namespace FileTable

variable {files : FileTable} {path : String} {f : FileEntry}

theorem accounts_of_refused {e : Failure} (h : files path = some f) (ho : f.openFailure = some e) :
    f.Accounts path (files.readProgram path).1 (files.readProgram path).2 := by
  rw [readProgram_of_refused h ho]
  constructor
  case missing =>
    intro e' he hm
    cases ho.symm.trans he
    exact ⟨rfl, by rw [if_pos (e.isMissing_iff.mpr hm)]⟩
  case refused =>
    intro e' he hm
    cases ho.symm.trans he
    exact ⟨rfl, by rw [if_neg (mt e.isMissing_iff.mp hm)]⟩
  case ends => exact Nat.le_add_left 1 _
  all_goals
    intro hn
    cases ho.symm.trans hn

theorem accounts_of_open (h : files path = some f) (ho : f.openFailure = none) :
    f.Accounts path (files.readProgram path).1 (files.readProgram path).2 := by
  have hopened := f.opened path
  rw [readProgram_of_open h ho]
  constructor
  case missing | refused =>
    intro e he
    cases ho.symm.trans he
  case closed => exact fun _ ↦ ⟨_, rfl, hopened.not_close_mem, hopened⟩
  case ends =>
    have hl := hopened.length_le
    rw [List.length_append, List.length_cons, List.length_singleton]
    omega
  case succeeds =>
    intro _ hs hr size hz hl image
    have hall := FileEntry.readOpened_of_deliversAll path hs hr hz hl
    constructor
    · intro hi
      obtain ⟨reads, ht⟩ := hopened.transferred hs hr hz hl
      rcases ht.deliversAll with hd | ⟨message, hm⟩
      · obtain ⟨hd', hsize⟩ := hall hd
        exact ⟨hd, (FileEntry.eq_extract_iff hsize).mp (Except.ok.inj (hi.symm.trans hd'))⟩
      · cases hi.symm.trans hm
    · rintro ⟨hd, hi⟩
      obtain ⟨hd', hsize⟩ := hall hd
      rw [hd', (FileEntry.eq_extract_iff hsize).mpr hi]
  case fails =>
    intro _ hs hr size hz hl hd
    obtain ⟨reads, ht⟩ := hopened.transferred hs hr hz hl
    exact ht.deliversAll.resolve_left hd

/-- A program file that was opened is closed once, whatever its calls answer, and the program is the
first bytes of the file, however the reads split them. That is also so when the calls are carried
out one after the other, whether or not the closing fails. -/
theorem readProgram_exact (files : FileTable) (path : String) :
    (files path = none → files.readProgram path = ([.openFile path], .error (.notFound path))) ∧
    ∀ f, files path = some f →
      f.Accounts path (files.readProgram path).1 (files.readProgram path).2 ∧
      ∀ closing : Option Failure, ∃ s,
        (Reading.program path { f with closeFailure := closing }).run (.start f) =
          .ok (files.readProgram path).2 s ∧ s.calls = (files.readProgram path).1 := by
  refine ⟨fun h ↦ by rw [readProgram, h], fun f h ↦ ⟨?_, Reading.run_program h⟩⟩
  cases ho : f.openFailure with
  | some e => exact accounts_of_refused h ho
  | none => exact accounts_of_open h ho

/-- A file of six bytes that is said to have four: the first three come in two reads, the fourth
with a read that could deliver more, and the closing fails. -/
theorem program_split_in_three :
    let f : FileEntry :=
      { data := #[0x12, 0x00, 0x60, 0x07, 0xFF, 0xFF], size := 4, regular := true, openFailure := none,
        statFailure := none, closeFailure := some (.error (some "EIO") "i/o error"),
        reads := [.atMost 1, .atMost 2, .atMost 9], mkdirFailure := none, writeFailure := none }
    let files : FileTable := fun path ↦ if path = "a.ch8" then some f else none
    (files.readProgram "b.ch8").1 = [.openFile "b.ch8"] ∧
      (files.readProgram "a.ch8").2 = .ok #[0x12, 0x00, 0x60, 0x07] ∧
      ∃ s between, (Reading.program "a.ch8" f).run (.start f) = .ok (.ok #[0x12, 0x00, 0x60, 0x07]) s ∧
        s.calls = .openFile "a.ch8" :: between ++ [.close] ∧ .close ∉ between ∧ s.calls.length ≤ 7 := by
  intro f files
  have hd : f.DeliversAll 4 :=
    ⟨[1, 2, 1], ((FileEntry.Delivers.nil.concat rfl Nat.one_pos).concat rfl Nat.two_pos).concat rfl
      Nat.one_pos, rfl⟩
  obtain ⟨ha, hrun⟩ := (readProgram_exact files "a.ch8").2 f (if_pos rfl)
  have hr := (ha.succeeds rfl rfl rfl 4 rfl (by decide) #[0x12, 0x00, 0x60, 0x07]).mpr
    ⟨hd, rfl, by decide⟩
  obtain ⟨s, hs, hc⟩ := hrun f.closeFailure
  obtain ⟨between, hb, hn, -⟩ := ha.closed rfl
  have hb' := (readProgram_exact files "b.ch8").1 (if_neg (by decide))
  rw [hr] at hs
  exact ⟨congrArg Prod.fst hb', hr, s, between, hs, hc.trans hb, hn, hc ▸ ha.ends⟩

end FileTable

end Chip8
