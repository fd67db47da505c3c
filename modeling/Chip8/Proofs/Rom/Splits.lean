import Mathlib.Algebra.GroupWithZero.Nat
import Chip8.Rom.File

namespace Chip8

namespace ReadPlan

theorem le_wanted_of_deliver {wanted left n : Nat} {plan : Option ReadPlan}
    (h : deliver wanted left plan = .ok n) : n ≤ wanted := by
  unfold deliver at h
  split at h <;> injection h <;> omega

end ReadPlan

namespace LoadError

theorem checkSize_of_le {size : Int} (h : size ≤ 3584) : checkSize size = .ok () :=
  if_neg (show ¬3584 < size by omega)

theorem checkSize_of_lt {size : Int} (h : 3584 < size) :
    checkSize size = .error (.tooLarge size 3584) := if_pos h

end LoadError

namespace FileEntry

variable {f : FileEntry} {data got : Image} {size n : Nat} {plan : List ReadPlan} {e : Failure}
  {ns : List Nat} {path : String}

def readCall (size got : Nat) : FileCall := .read got (size - got) got

theorem readAll_of_le (h : size ≤ got.size) : readAll data size plan got = ([], .ok got) := by
  rw [readAll, dif_neg (by omega)]

theorem readAll_of_error (h : got.size < size)
    (hd : ReadPlan.deliver (size - got.size) (data.size - got.size) plan.head? = .error e) :
    readAll data size plan got = ([readCall size got.size], .error e) := by
  rw [readAll, dif_pos h]
  split <;> simp_all [readCall]

theorem readAll_of_zero (h : got.size < size)
    (hd : ReadPlan.deliver (size - got.size) (data.size - got.size) plan.head? = .ok 0) :
    readAll data size plan got = ([readCall size got.size], .ok got) := by
  rw [readAll, dif_pos h]
  split <;> simp_all [readCall]

theorem readAll_of_pos (h : got.size < size) (hn : 0 < n)
    (hd : ReadPlan.deliver (size - got.size) (data.size - got.size) plan.head? = .ok n) :
    readAll data size plan got =
      let rest := readAll data size plan.tail (got ++ data.extract got.size (got.size + n))
      (readCall size got.size :: rest.1, rest.2) := by
  rw [readAll, dif_pos h]
  split
  · simp_all
  · simp_all
  · next k hk =>
    rw [hd] at hk
    cases hk
    rfl

/-- What the next read answers, after `ns` bytes from the reads before it: it starts where those end
and asks for the rest of `size` bytes. -/
def answer (f : FileEntry) (size : Nat) (ns : List Nat) : Except Failure Nat :=
  ReadPlan.deliver (size - ns.sum) (f.data.size - ns.sum) f.reads[ns.length]?

inductive Delivers (f : FileEntry) (size : Nat) : List Nat → Prop
  | nil : Delivers f size []
  | concat {ns : List Nat} {n : Nat} (h : Delivers f size ns) (hn : f.answer size ns = .ok n)
      (hpos : 0 < n) : Delivers f size (ns ++ [n])

def readCalls (size : Nat) (ns : List Nat) (k : Nat) : List FileCall :=
  (List.range k).map fun j ↦ readCall size (ns.take j).sum

theorem readCalls_succ (k : Nat) :
    readCalls size ns (k + 1) = readCalls size ns k ++ [readCall size (ns.take k).sum] := by
  rw [readCalls, List.range_succ, List.map_append]
  rfl

theorem readCalls_concat : readCalls size (ns ++ [n]) ns.length = readCalls size ns ns.length := by
  refine List.map_congr_left fun j hj ↦ ?_
  rw [List.take_append_of_le_length (Nat.le_of_lt (List.mem_range.mp hj))]

theorem Delivers.sum_le (h : f.Delivers size ns) : ns.sum ≤ size ∧ ns.sum ≤ f.data.size := by
  induction h with
  | nil => exact ⟨Nat.zero_le _, Nat.zero_le _⟩
  | concat h hn hpos ih =>
    have hw := ReadPlan.le_wanted_of_deliver hn
    have hl := ReadPlan.le_of_deliver hn
    rw [List.sum_append, List.sum_singleton]
    omega

theorem Delivers.length_le (h : f.Delivers size ns) : ns.length ≤ ns.sum := by
  induction h with
  | nil => exact Nat.le_refl 0
  | concat h hn hpos ih =>
    rw [List.sum_append, List.sum_singleton, List.length_append, List.length_singleton]
    omega

def readRest (f : FileEntry) (size : Nat) (ns : List Nat) : List FileCall × Except Failure Image :=
  readAll f.data size (f.reads.drop ns.length) (f.data.extract 0 ns.sum)

theorem Delivers.readAll_eq (h : f.Delivers size ns) :
    readAll f.data size f.reads #[] =
      (readCalls size ns ns.length ++ (f.readRest size ns).1, (f.readRest size ns).2) := by
  induction h with
  | nil => simp [readRest, readCalls]
  | @concat ns n h hn hpos ih =>
    have hs := h.sum_le
    have hw := ReadPlan.le_wanted_of_deliver hn
    have hgot : (f.data.extract 0 ns.sum).size = ns.sum := by
      rw [Array.size_extract]
      omega
    have hrest : f.readRest size ns =
        (readCall size ns.sum :: (f.readRest size (ns ++ [n])).1, (f.readRest size (ns ++ [n])).2) := by
      rw [readRest, readAll_of_pos (n := n) (by omega) hpos (by rw [hgot, List.head?_drop]; exact hn),
        hgot]
      have hplan : (f.reads.drop ns.length).tail = f.reads.drop (ns ++ [n]).length := by
        rw [List.tail_drop, List.length_append, List.length_singleton]
      have hdata : f.data.extract 0 ns.sum ++ f.data.extract ns.sum (ns.sum + n) =
          f.data.extract 0 (ns ++ [n]).sum := by
        rw [List.sum_append, List.sum_singleton, Array.extract_append_extract]
        congr 1
        omega
      rw [hplan, hdata]
      rfl
    rw [ih, hrest, List.length_append, List.length_singleton, readCalls_succ, readCalls_concat,
      List.take_left, List.append_assoc]
    rfl

inductive Stops (f : FileEntry) (size : Nat) (ns : List Nat) : Prop
  | full (hs : ns.sum = size)
  | empty (hs : ns.sum < size) (hn : f.answer size ns = .ok 0)
  | failed {e : Failure} (hs : ns.sum < size) (he : f.answer size ns = .error e)

/-- Every read that delivers something leaves less to read, so the reads stop. -/
theorem Delivers.exists_stops (h : f.Delivers size ns) : ∃ ms, f.Delivers size ms ∧ f.Stops size ms := by
  have hs := h.sum_le.1
  induction hd : size - ns.sum using Nat.strongRecOn generalizing ns with
  | ind d ih =>
    rcases Nat.eq_or_lt_of_le hs with hfull | hlt
    · exact ⟨ns, h, .full hfull⟩
    · cases ha : f.answer size ns with
      | error e => exact ⟨ns, h, .failed hlt ha⟩
      | ok n =>
        rcases Nat.eq_zero_or_pos n with rfl | hpos
        · exact ⟨ns, h, .empty hlt ha⟩
        · have h' := h.concat ha hpos
          have hsum : (ns ++ [n]).sum = ns.sum + n := by rw [List.sum_append, List.sum_singleton]
          exact ih (size - (ns ++ [n]).sum) (by omega) h' h'.sum_le.1 rfl

theorem exists_stops (f : FileEntry) (size : Nat) : ∃ ns, f.Delivers size ns ∧ f.Stops size ns :=
  Delivers.nil.exists_stops

theorem Delivers.readAll_of_full (h : f.Delivers size ns) (hs : ns.sum = size) :
    readAll f.data size f.reads #[] = (readCalls size ns ns.length, .ok (f.data.extract 0 size)) := by
  have hd := h.sum_le.2
  rw [h.readAll_eq, readRest, readAll_of_le (by rw [Array.size_extract]; omega), List.append_nil, hs]

theorem Delivers.size_extract (h : f.Delivers size ns) : (f.data.extract 0 ns.sum).size = ns.sum := by
  have hd := h.sum_le.2
  rw [Array.size_extract]
  omega

theorem Delivers.readAll_of_empty (h : f.Delivers size ns) (hs : ns.sum < size)
    (hn : f.answer size ns = .ok 0) :
    readAll f.data size f.reads #[] =
      (readCalls size ns (ns.length + 1), .ok (f.data.extract 0 ns.sum)) := by
  have hg := h.size_extract
  rw [h.readAll_eq, readRest, readAll_of_zero (by omega) (by rw [hg, List.head?_drop]; exact hn),
    readCalls_succ, List.take_length, hg]

theorem Delivers.readAll_of_failed {e : Failure} (h : f.Delivers size ns) (hs : ns.sum < size)
    (he : f.answer size ns = .error e) :
    readAll f.data size f.reads #[] = (readCalls size ns (ns.length + 1), .error e) := by
  have hg := h.size_extract
  rw [h.readAll_eq, readRest, readAll_of_error (by omega) (by rw [hg, List.head?_drop]; exact he),
    readCalls_succ, List.take_length, hg]

inductive Transferred (f : FileEntry) (path : String) (size : Nat) :
    List FileCall → Except LoadError Image → Prop
  | whole {ns : List Nat} (h : f.Delivers size ns) (hs : ns.sum = size) :
      Transferred f path size (readCalls size ns ns.length) (.ok (f.data.extract 0 size))
  | short {ns : List Nat} (h : f.Delivers size ns) (hs : ns.sum < size)
      (hn : f.answer size ns = .ok 0) :
      Transferred f path size (readCalls size ns (ns.length + 1)) (.error (.readFailed path
        ("read " ++ toString ns.sum ++ " of " ++ toString size ++ " bytes")))
  | failed {ns : List Nat} {e : Failure} (h : f.Delivers size ns) (hs : ns.sum < size)
      (he : f.answer size ns = .error e) :
      Transferred f path size (readCalls size ns (ns.length + 1))
        (.error (.readFailed path e.message))

inductive Opened (f : FileEntry) (path : String) : List FileCall → Except LoadError Image → Prop
  | unknown {e : Failure} (hs : f.statFailure = some e) :
      Opened f path [.stat] (.error (.readFailed path e.message))
  | irregular (hs : f.statFailure = none) (hr : f.regular = false) :
      Opened f path [.stat] (.error (.notFound path))
  | tooLarge (hs : f.statFailure = none) (hr : f.regular = true) (hz : 3584 < f.size) :
      Opened f path [.stat] (.error (.tooLarge f.size 3584))
  | negative (hs : f.statFailure = none) (hr : f.regular = true) (hz : f.size < 0) :
      Opened f path [.stat] (.error (.readFailed path (invalidLength f.size)))
  | sized {size : Nat} {reads : List FileCall} {r : Except LoadError Image}
      (hs : f.statFailure = none) (hr : f.regular = true) (hz : f.size = size) (hl : size ≤ 3584)
      (ht : f.Transferred path size reads r) : Opened f path (.stat :: reads) r

theorem readOpened_of_negative (hs : f.statFailure = none) (hr : f.regular = true)
    (hz : f.size < 0) :
    readOpened path f = ([.stat], .error (.readFailed path (invalidLength f.size))) := by
  have hc : LoadError.checkSize f.size = .ok () := LoadError.checkSize_of_le (by omega)
  obtain ⟨k, hk⟩ := Int.eq_negSucc_of_lt_zero hz
  rw [hk] at hc ⊢
  simp only [readOpened, hs, hr, hk, hc, Bool.not_true, Bool.false_eq_true, if_false]

def settle (path : String) (size : Nat) :
    List FileCall × Except Failure Image → List FileCall × Except LoadError Image
  | (calls, .error e) => (.stat :: calls, .error (.readFailed path e.message))
  | (calls, .ok image) =>
    if image.size = size then (.stat :: calls, .ok image)
    else
      (.stat :: calls, .error (.readFailed path
        ("read " ++ toString image.size ++ " of " ++ toString size ++ " bytes")))

theorem readOpened_of_size (hs : f.statFailure = none) (hr : f.regular = true)
    (hz : f.size = size) (hl : size ≤ 3584) :
    readOpened path f = settle path size (readAll f.data size f.reads #[]) := by
  have hc : LoadError.checkSize size = .ok () := LoadError.checkSize_of_le (by omega)
  rw [readOpened, hs]
  simp only [hr, Bool.not_true, Bool.false_eq_true, if_false, hz, hc]
  rfl

theorem Delivers.readOpened_of_full (h : f.Delivers size ns) (hsum : ns.sum = size)
    (hs : f.statFailure = none) (hr : f.regular = true) (hz : f.size = size) (hl : size ≤ 3584) :
    readOpened path f = (.stat :: readCalls size ns ns.length, .ok (f.data.extract 0 size)) := by
  have hsize : (f.data.extract 0 size).size = size := by rw [← hsum, h.size_extract]
  rw [readOpened_of_size hs hr hz hl, h.readAll_of_full hsum]
  simp only [settle, if_pos hsize]

theorem opened_of_size (hs : f.statFailure = none) (hr : f.regular = true)
    (hz : f.size = size) (hl : size ≤ 3584) :
    f.Opened path (readOpened path f).1 (readOpened path f).2 := by
  obtain ⟨ns, h, hstop⟩ := exists_stops f size
  cases hstop with
  | full hsum =>
    rw [h.readOpened_of_full hsum hs hr hz hl]
    exact .sized hs hr hz hl (.whole h hsum)
  | empty hsum hn =>
    rw [readOpened_of_size hs hr hz hl, h.readAll_of_empty hsum hn]
    simp only [settle, h.size_extract, if_neg (Nat.ne_of_lt hsum)]
    exact .sized hs hr hz hl (.short h hsum hn)
  | failed hsum he =>
    rw [readOpened_of_size hs hr hz hl, h.readAll_of_failed hsum he]
    exact .sized hs hr hz hl (.failed h hsum he)

theorem opened (f : FileEntry) (path : String) :
    f.Opened path (readOpened path f).1 (readOpened path f).2 := by
  cases hs : f.statFailure with
  | some e =>
    rw [readOpened, hs]
    exact .unknown hs
  | none =>
    cases hr : f.regular with
    | false =>
      rw [readOpened, hs, hr]
      exact .irregular hs hr
    | true =>
      rcases Int.lt_or_le 3584 f.size with hl | hl
      · rw [readOpened, hs, hr, LoadError.checkSize_of_lt hl]
        exact .tooLarge hs hr hl
      · rcases Int.lt_or_le f.size 0 with hz | hz
        · rw [readOpened_of_negative hs hr hz]
          exact .negative hs hr hz
        · obtain ⟨size, hz⟩ := Int.eq_ofNat_of_zero_le hz
          exact opened_of_size hs hr hz (by omega)

theorem length_readCalls (k : Nat) : (readCalls size ns k).length = k := by
  rw [readCalls, List.length_map, List.length_range]

theorem not_close_mem_readCalls (k : Nat) : .close ∉ readCalls size ns k := by
  simp [readCalls, readCall]

namespace Opened

variable {calls : List FileCall} {r : Except LoadError Image}

theorem not_close_mem (h : f.Opened path calls r) : .close ∉ calls := by
  cases h with
  | sized hs hr hz hl ht => cases ht <;> simp [not_close_mem_readCalls]
  | _ => simp

theorem length_le (h : f.Opened path calls r) : calls.length ≤ f.size.toNat + 1 := by
  cases h with
  | sized hs hr hz hl ht =>
    rw [hz, Int.toNat_natCast, List.length_cons]
    cases ht with
    | whole h hs =>
      have hn := h.length_le
      rw [length_readCalls]
      omega
    | short h hs hn | failed h hs hn =>
      have hn := h.length_le
      rw [length_readCalls]
      omega
  | _ => exact Nat.le_add_left 1 _

end Opened

end FileEntry

namespace FileTable

variable {files : FileTable} {path : String} {f : FileEntry}

theorem readProgram_of_refused {e : Failure} (h : files path = some f) (ho : f.openFailure = some e) :
    files.readProgram path = ([.openFile path],
      .error (if e.isMissing then .notFound path else .openFailed path e.message)) := by
  simp only [readProgram, h, ho]

theorem readProgram_of_open (h : files path = some f) (ho : f.openFailure = none) :
    files.readProgram path =
      (.openFile path :: (f.readOpened path).1 ++ [.close], (f.readOpened path).2) := by
  simp only [readProgram, h, ho]

end FileTable

end Chip8
