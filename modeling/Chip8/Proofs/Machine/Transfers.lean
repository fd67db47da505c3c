import Chip8.Proofs.Machine.Bounds
import Chip8.Proofs.Machine.Timers

namespace Chip8

namespace Memory

theorem read_store_getElem (m : Memory) (bs : List UInt8) {a k : Nat} (ha : a + bs.length ≤ 4096)
    (hk : k < bs.length) : (m.store a bs).read (a + k : Nat) = bs[k] := by
  induction bs generalizing m a k with
  | nil => cases hk
  | cons b bs ih =>
    rw [List.length_cons] at ha hk
    have hs : (a : Int) + 1 = (a + 1 : Nat) := rfl
    rw [store, hs]
    cases k with
    | zero =>
      rw [read_store _ (by omega) (by omega) (by omega), Nat.add_zero, read_write, if_pos rfl]
      rfl
    | succ k =>
      rw [show a + (k + 1) = a + 1 + k by omega, ih (m.write a b) (by omega) (by omega)]
      rfl

end Memory

namespace Machine

variable {m m' : Machine} {w : UInt16} {x : Register} {e : Event} {es : List Event} {a : Address}

structure Stored (m : Machine) (x : Register) (m' : Machine) : Prop where
  range_le : m.index.toNat + x.val + 1 ≤ 0x1000
  stored : ∀ r ≤ x, m'.memory.read (m.index.toNat + r.val : Nat) = m.register r
  read_eq : ∀ a < 0x1000, a < m.index.toNat ∨ m.index.toNat + x.val < a →
    m'.memory.read (a : Nat) = m.memory.read (a : Nat)
  index_eq : m'.index.toNat =
    if m.dialect.has Dialect.movesIndex then m.index.toNat + x.val + 1 else m.index.toNat
  rest_eq : m' = { m with memory := m'.memory, index := m'.index, pc := m'.pc }

structure Loaded (m : Machine) (x : Register) (m' : Machine) : Prop where
  loaded : ∀ r ≤ x, m'.register r = m.memory.read (m.index.toNat + r.val : Nat)
  register_eq : ∀ r, x < r → m'.register r = m.register r
  index_eq : m'.index.toNat =
    if m.dialect.has Dialect.movesIndex then m.index.toNat + x.val + 1 else m.index.toNat
  rest_eq : m' = { m with v := m'.v, index := m'.index, pc := m'.pc }

structure DecimalStored (m : Machine) (x : Register) (m' : Machine) : Prop where
  digits : ∃ h t o : UInt8, h ≤ 9 ∧ t ≤ 9 ∧ o ≤ 9 ∧
    100 * h.toNat + 10 * t.toNat + o.toNat = (m.register x).toNat ∧
    m'.memory.read m.index.toNat = h ∧ m'.memory.read (m.index.toNat + 1 : Nat) = t ∧
    m'.memory.read (m.index.toNat + 2 : Nat) = o
  read_eq : ∀ a < 0x1000, a < m.index.toNat ∨ m.index.toNat + 2 < a →
    m'.memory.read (a : Nat) = m.memory.read (a : Nat)
  rest_eq : m' = { m with memory := m'.memory, pc := m'.pc }

theorem toNat_indexAfter {n : Nat} (h : m.index.toNat + n ≤ 0x1000) :
    (m.indexAfter n).toNat =
      if m.dialect.has Dialect.movesIndex then m.index.toNat + n else m.index.toNat := by
  unfold indexAfter
  split
  · rw [UInt16.toNat_add, UInt16.toNat_ofNat_of_lt' (show n < 0x10000 by omega)]
    exact Nat.mod_eq_of_lt (show m.index.toNat + n < 0x10000 by omega)
  · rfl

theorem stored_execute (h : m.index.toNat + (x.val + 1) ≤ 4096) :
    m.Stored x (m.execute (.storeRegisters x)) := by
  have hl : (m.v.toList.take (x.val + 1)).length = x.val + 1 := by
    rw [List.length_take, Vector.length_toList]
    omega
  constructor
  case range_le => exact h
  case stored =>
    intro r hr
    rw [Fin.le_def] at hr
    have hs := m.memory.read_store_getElem (m.v.toList.take (x.val + 1)) (a := m.index.toNat)
      (k := r.val) (by omega) (by omega)
    refine hs.trans ?_
    rw [List.getElem_take, Vector.getElem_toList]
    rfl
  case read_eq =>
    intro a ha ho
    exact m.memory.read_store (by omega) ha (by omega)
  case index_eq => exact toNat_indexAfter h
  case rest_eq => rfl

theorem loaded_execute (h : m.index.toNat + (x.val + 1) ≤ 4096) :
    m.Loaded x (m.execute (.loadRegisters x)) := by
  have hv (r : Register) : (m.execute (.loadRegisters x)).register r =
      if r ≤ x then m.memory.read (m.index.toNat + r.val : Nat) else m.v[r] :=
    Vector.getElem_ofFn r.isLt
  constructor
  case loaded =>
    intro r hr
    rw [hv, if_pos hr]
  case register_eq =>
    intro r hr
    rw [hv, if_neg (Fin.not_le.mpr hr)]
    rfl
  case index_eq => exact toNat_indexAfter h
  case rest_eq => rfl

theorem decimalStored_execute (h : m.index.toNat + 3 ≤ 4096) :
    m.DecimalStored x (m.execute (.storeDecimal x)) := by
  let b := m.register x
  have hd : b / 100 ≤ 9 ∧ b / 10 % 10 ≤ 9 ∧ b % 10 ≤ 9 ∧
      100 * (b / 100).toNat + 10 * (b / 10 % 10).toNat + (b % 10).toNat = b.toNat := by
    have hb := b.toNat_lt
    simp only [UInt8.le_iff_toNat_le, UInt8.toNat_div, UInt8.toNat_mod, UInt8.reduceToNat]
    omega
  have hs (k : Nat) (hk : k < 3) :=
    m.memory.read_store_getElem [b / 100, b / 10 % 10, b % 10] (a := m.index.toNat) (k := k) h hk
  obtain ⟨h₁, h₂, h₃, hsum⟩ := hd
  constructor
  case digits =>
    exact ⟨_, _, _, h₁, h₂, h₃, hsum, hs 0 (by decide), hs 1 (by decide), hs 2 (by decide)⟩
  case read_eq =>
    intro a ha ho
    exact m.memory.read_store h ha (by simp only [List.length_cons, List.length_nil]; omega)
  case rest_eq => rfl

theorem decode?_storeRegisters (h : Word.IsF w 0x55) :
    Instruction.decode? w = some (.storeRegisters (Word.x w)) := by
  obtain ⟨hf, hk⟩ := h
  simp only [Instruction.decode?, hf, Word.toNat_low8, hk]

theorem decode?_loadRegisters (h : Word.IsF w 0x65) :
    Instruction.decode? w = some (.loadRegisters (Word.x w)) := by
  obtain ⟨hf, hk⟩ := h
  simp only [Instruction.decode?, hf, Word.toNat_low8, hk]

theorem decode?_storeDecimal (h : Word.IsF w 0x33) :
    Instruction.decode? w = some (.storeDecimal (Word.x w)) := by
  obtain ⟨hf, hk⟩ := h
  simp only [Instruction.decode?, hf, Word.toNat_low8, hk]

end Machine

/-- The event writes the byte at `a`: it starts or removes a program, it pokes at `a`, or it is a
step that stores over it. -/
def Occurrence.Writes (o : Occurrence) (a : Address) : Prop :=
  match o.event with
  | .poke b _ => Memory.cell b = a
  | .step => o.machine.step.2 = .success ∧ ∃ w ∈ o.machine.fetch?, o.machine.MayTouch w (.cell a)
  | _ => o.isStart = true

namespace Machine

variable {m m' : Machine} {w : UInt16} {x : Register} {e : Event} {es : List Event} {a : Address}

/-- What each event of a history keeps, the history keeps. -/
theorem run_of_occurrences {P : Machine → Prop} (hm : P m)
    (h : ∀ o ∈ m.occurrences es, P o.machine → P (o.machine.apply o.event)) : P (m.run es) := by
  induction es generalizing m with
  | nil => exact hm
  | cons e es ih =>
    rw [occurrences] at h
    rw [run_cons]
    apply ih
    · exact h ⟨m, e⟩ (by simp) hm
    · intro o ho
      exact h o (List.mem_append_left _ ho)

theorem load_of_not_isStart {read : Except LoadError Image}
    (h : ¬Occurrence.isStart ⟨m, .load read⟩ = true) : (m.load read).1 = m := by
  have hs : Occurrence.isStart ⟨m, .load read⟩ = (m.load read).2.isOk := rfl
  rw [hs] at h
  unfold load at h ⊢
  cases hr : read.bind LoadError.checkImage with
  | error err => rfl
  | ok image =>
    rw [hr] at h
    exact absurd rfl h

theorem read_apply (h : ¬Occurrence.Writes ⟨m, e⟩ a) :
    (m.apply e).memory.read (a.val : Nat) = m.memory.read (a.val : Nat) := by
  cases e with
  | load read => rw [apply, load_of_not_isStart h]
  | reset dialect => exact absurd rfl h
  | poke b v =>
    have hne : Memory.cell b ≠ Memory.cell (a.val : Nat) := by
      rw [Memory.cell_natCast a.isLt]
      exact h
    exact (Memory.read_write _ _ _ _).trans (if_neg hne)
  | step =>
    by_cases ho : m.step.2 = .success
    · obtain ⟨w, hw, hf⟩ := step_footprint (Prod.ext rfl ho : m.step = (m.step.1, .success))
      exact hf.same (.cell a) fun ht ↦ h ⟨ho, w, hw, ht⟩
    · rw [apply, step_of_ne_success ho]
  | _ => rfl

theorem running_apply (h : ¬Occurrence.Writes ⟨m, e⟩ a) : (m.apply e).running = m.running := by
  cases e with
  | load read => rw [apply, load_of_not_isStart h]
  | reset dialect => exact absurd rfl h
  | step => exact m.stepsTo.kept.running_eq
  | _ => rfl

theorem read_run (h : ∀ o ∈ m.occurrences es, ¬o.Writes a) :
    (m.run es).memory.read (a.val : Nat) = m.memory.read (a.val : Nat) :=
  run_of_occurrences (P := fun n ↦ n.memory.read (a.val : Nat) = m.memory.read (a.val : Nat)) rfl
    fun o ho hm ↦ (read_apply (h o ho)).trans hm

theorem running_run (h : ∀ o ∈ m.occurrences es, ¬o.Writes a) : (m.run es).running = m.running :=
  run_of_occurrences (P := fun n ↦ n.running = m.running) rfl
    fun o ho hm ↦ (running_apply (h o ho)).trans hm

/-- Registers that were stored are loaded again from the same index, if nothing was written over
them. -/
theorem Stored.load (h : m.Stored x m') (hr : m'.running = true)
    (hu : ∀ o ∈ m'.occurrences es, ∀ a : Address,
      m.index.toNat ≤ a.val → a.val ≤ m.index.toNat + x.val → ¬o.Writes a)
    (hw : (m'.run es).fetch? = some w) (hf : Word.IsF w 0x65) (hx : Word.x w = x)
    (hi : (m'.run es).index = m.index) :
    ∃ n, (m'.run es).step = (n, .success) ∧ ∀ r ≤ x, n.register r = m.register r := by
  have hl := h.range_le
  have hcell (r : Register) (hrx : r ≤ x) (o : Occurrence) (ho : o ∈ m'.occurrences es) :
      ¬o.Writes ⟨m.index.toNat + r.val, by rw [Fin.le_def] at hrx; omega⟩ := by
    rw [Fin.le_def] at hrx
    exact hu o ho _ (Nat.le_add_right _ _) (Nat.add_le_add_left hrx _)
  have hrun : (m'.run es).running = true := (running_run (hcell 0 (Fin.zero_le x))).trans hr
  have hd := decode?_loadRegisters hf
  rw [hx] at hd
  have ho : (m'.run es).fault? (.loadRegisters x) = none := by
    rw [fault?_of_span? rfl, if_pos]
    rw [Memory.inBounds_iff, hi]
    omega
  have hn : (m'.run es).Loaded x ((m'.run es).execute (.loadRegisters x)) :=
    loaded_execute (by rw [hi]; omega)
  refine ⟨_, (StepsTo.execute hrun hw hd ho).step_eq, ?_⟩
  intro r hrx
  rw [hn.loaded r hrx, hi, ← h.stored r hrx]
  exact read_run (hcell r hrx)

/-- A step that succeeds at `Fx55`, `Fx65` or `Fx33` moves the bytes of its range and no others.
What `Fx55` stores, `Fx65` loads again at any later time at which the index is the same and nothing
was written over it. -/
theorem transfers_exact (h : m.step = (m', .success)) (hw : m.fetch? = some w) :
    (Word.IsF w 0x55 → m.Stored (Word.x w) m' ∧
      ∀ es v, let n := m'.run es
        n.fetch? = some v → Word.IsF v 0x65 → Word.x v = Word.x w → n.index = m.index →
        (∀ o ∈ m'.occurrences es, ∀ a : Address, m.index.toNat ≤ a.val →
          a.val ≤ m.index.toNat + (Word.x w).val → ¬o.Writes a) →
        ∃ n', n.step = (n', .success) ∧ ∀ r ≤ Word.x w, n'.register r = m.register r) ∧
      (Word.IsF w 0x65 → m.Loaded (Word.x w) m') ∧
      (Word.IsF w 0x33 → m.DecimalStored (Word.x w) m') := by
  obtain ⟨hr, i, hi, ho, rfl⟩ := executed_of_success h hw
  refine ⟨?_, ?_, ?_⟩
  · intro hf
    rw [decode?_storeRegisters hf] at hi
    cases hi
    have hs := stored_execute (span_le rfl ho)
    refine ⟨hs, ?_⟩
    intro es v n hv hf' hx hn hu
    exact hs.load hr hu hv hf' hx hn
  · intro hf
    rw [decode?_loadRegisters hf] at hi
    cases hi
    exact loaded_execute (span_le rfl ho)
  · intro hf
    rw [decode?_storeDecimal hf] at hi
    cases hi
    exact decimalStored_execute (span_le rfl ho)

/-- Two registers are stored in a dialect that moves the index. One of them is changed, the byte
after them is overwritten, and the dialect no longer moves the index when they are loaded. -/
theorem loaded_back_in_other_dialect :
    let m := (new ⟨4⟩ (.cycle [])).run [.load (.ok #[0x60, 0x11, 0x61, 0x22, 0xA3, 0x00, 0xF1, 0x55,
      0x60, 0x00, 0xA3, 0x00, 0xF1, 0x65]), .step, .step, .step]
    let es : List Event := [.step, .poke 0x302 0xFF, .clearFlag 4, .step]
    let n := m.step.1.run es
    m.step = (m.step.1, .success) ∧ m.fetch? = some 0xF155 ∧ m.step.1.index = 0x302 ∧
      n.fetch? = some 0xF165 ∧ n.index = m.index ∧ n.register 0 = 0x00 ∧
      ∃ n', n.step = (n', .success) ∧ n'.register 0 = 0x11 ∧ n'.register 1 = 0x22 := by
  intro m es n
  have hm : m.step.2 = .success ∧ m.fetch? = some 0xF155 ∧ m.step.1.index = 0x302 ∧
      m.index.toNat = 0x300 ∧ m.register 0 = 0x11 ∧ m.register 1 = 0x22 := by decide +kernel
  have hn : n.fetch? = some 0xF165 ∧ n.index = m.index ∧ n.register 0 = 0x00 := by decide +kernel
  have h₁ : m.step.1.fetch? = some 0x6000 := by decide +kernel
  have h₂ : (m.step.1.run (es.take 3)).fetch? = some 0xA300 := by decide +kernel
  clear_value m
  obtain ⟨ho, hw, hi, hi', h₀, h₁'⟩ := hm
  have hs : m.step = (m.step.1, .success) := Prod.ext rfl ho
  obtain ⟨-, hload⟩ := (transfers_exact hs hw).1 (by decide)
  have hu : ∀ o ∈ m.step.1.occurrences es, ∀ a : Address, m.index.toNat ≤ a.val →
      a.val ≤ m.index.toNat + (Word.x 0xF155).val → ¬o.Writes a := by
    intro o ho a ha ha'
    simp only [es, occurrences, List.nil_append, List.cons_append, List.mem_cons,
      List.not_mem_nil, or_false] at ho
    rcases ho with rfl | rfl | rfl | rfl
    · rintro ⟨-, w, hw, ht⟩
      cases Option.some.inj (h₂.symm.trans hw)
      simp [MayTouch, Word.IsF] at ht
    · exact Bool.false_ne_true
    · intro hb
      have hv : 0x302 = a.val := congrArg Fin.val (show Memory.cell 0x302 = a from hb)
      rw [hi', ← hv] at ha'
      exact absurd ha' (by decide)
    · rintro ⟨-, w, hw, ht⟩
      cases Option.some.inj (h₁.symm.trans hw)
      simp [MayTouch, Word.IsF] at ht
  obtain ⟨n', hn', hr⟩ := hload es 0xF165 hn.1 (by decide) (by decide) hn.2.1 hu
  refine ⟨hs, hw, hi, hn.1, hn.2.1, hn.2.2, n', hn', ?_, ?_⟩
  · exact (hr 0 (by decide)).trans h₀
  · exact (hr 1 (by decide)).trans h₁'

end Machine

end Chip8
