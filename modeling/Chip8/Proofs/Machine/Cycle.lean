import Chip8.Machine.Cycle
import Chip8.Machine.History
import Chip8.Proofs.Machine.Step

namespace Chip8

theorem Machine.goTo_pc_add_two (m : Machine) :
    m.goTo (UInt16.ofNat (m.pc.toNat + 2)) = m.advance := by
  simp [Machine.advance]

namespace Cycle

variable {α β : Type} {x : α} {y : β} {m m' : Machine} {c c' : Cycle} {i : Instruction}
  {o o' : Outcome} {len : Nat}

/-- No address loses a bit in memory, and no count loses one in sixteen bits. -/
structure Exact (c : Cycle) : Prop where
  addresses : ∀ a ∈ c.addresses, ((Memory.cell a).val : Int) = a
  counts : ∀ n ∈ c.counts, (UInt16.ofNat n).toNat = n

theorem exact_start (m : Machine) : Exact ⟨m, [], []⟩ :=
  ⟨fun _ h ↦ (List.not_mem_nil h).elim, fun _ h ↦ (List.not_mem_nil h).elim⟩

def Runs (action : Action α) (c : Cycle) (x : α) (m : Machine) : Prop :=
  ∃ c', action.run c = .ok x c' ∧ c'.machine = m ∧ (c.Exact → c'.Exact)

def Fails (action : Action α) (c : Cycle) (o : Outcome) (m : Machine) : Prop :=
  ∃ c', action.run c = .error o c' ∧ c'.machine = m ∧ (c.Exact → c'.Exact)

theorem Runs.of_kept {action : Action α} (h : action.run c = .ok x c') (hm : c'.machine = m)
    (ha : c'.addresses = c.addresses) (hn : c'.counts = c.counts) : Runs action c x m :=
  ⟨c', h, hm, fun he ↦ ⟨ha ▸ he.addresses, hn ▸ he.counts⟩⟩

theorem Runs.bind {a : Action α} {b : α → Action β} (h : Runs a c x m)
    (hb : ∀ as ns, Runs (b x) ⟨m, as, ns⟩ y m') : Runs (a >>= b) c y m' := by
  obtain ⟨⟨_, as, ns⟩, ha, rfl, he⟩ := h
  obtain ⟨d, hd, hm', he'⟩ := hb as ns
  refine ⟨d, ?_, hm', he' ∘ he⟩
  simp only [EStateM.run_bind, ha]
  exact hd

theorem Runs.bind_fails {a : Action α} {b : α → Action β} (h : Runs a c x m)
    (hb : ∀ as ns, Fails (b x) ⟨m, as, ns⟩ o m') : Fails (a >>= b) c o m' := by
  obtain ⟨⟨_, as, ns⟩, ha, rfl, he⟩ := h
  obtain ⟨d, hd, hm', he'⟩ := hb as ns
  refine ⟨d, ?_, hm', he' ∘ he⟩
  simp only [EStateM.run_bind, ha]
  exact hd

theorem Fails.bind {a : Action α} (h : Fails a c o m) (b : α → Action β) :
    Fails (a >>= b) c o m := by
  obtain ⟨c', ha, hm, he⟩ := h
  refine ⟨c', ?_, hm, he⟩
  simp only [EStateM.run_bind, ha]

theorem run_tryCatch (a : Action α) (handle : Outcome → Action α) (c : Cycle) :
    EStateM.run (tryCatch a handle) c =
      match a.run c with
      | .ok x d => .ok x d
      | .error o d => (handle o).run d := by
  change EStateM.tryCatch a handle c = _
  delta EStateM.tryCatch EStateM.run
  cases a c <;> rfl

theorem Runs.tryCatch {a : Action α} (h : Runs a c x m) (handle : Outcome → Action α) :
    Runs (tryCatch a handle) c x m := by
  obtain ⟨c', ha, hm, he⟩ := h
  refine ⟨c', ?_, hm, he⟩
  simp only [run_tryCatch, ha]

theorem Fails.tryCatch {a : Action α} {handle : Outcome → Action α} (h : Fails a c o m)
    (hh : ∀ as ns, Fails (handle o) ⟨m, as, ns⟩ o' m') : Fails (tryCatch a handle) c o' m' := by
  obtain ⟨⟨_, as, ns⟩, ha, rfl, he⟩ := h
  obtain ⟨d, hd, hm', he'⟩ := hh as ns
  refine ⟨d, ?_, hm', he' ∘ he⟩
  simp only [run_tryCatch, ha]
  exact hd

theorem fails_throw (o : Outcome) (c : Cycle) : Fails (throw o : Action α) c o c.machine :=
  ⟨c, rfl, rfl, id⟩

theorem runs_look (f : Machine → α) (c : Cycle) : Runs (look f) c (f c.machine) c.machine :=
  .of_kept rfl rfl rfl rfl

theorem runs_change (f : Machine → Machine) (c : Cycle) : Runs (change f) c () (f c.machine) :=
  .of_kept rfl rfl rfl rfl

theorem runs_access {as : List Int} (h : ∀ a ∈ as, 0 ≤ a ∧ a < 4096) (c : Cycle) :
    Runs (access as) c () c.machine := by
  refine ⟨_, rfl, rfl, fun he ↦ ⟨?_, he.counts⟩⟩
  intro a ha
  rcases List.mem_append.mp ha with ha | ha
  · have := h a ha
    simp only [Memory.cell]
    omega
  · exact he.addresses a ha

theorem runs_count {n : Nat} (h : n < 0x10000) (c : Cycle) : Runs (count n) c () c.machine := by
  refine ⟨_, rfl, rfl, fun he ↦ ⟨he.addresses, ?_⟩⟩
  intro k hk
  rcases List.mem_cons.mp hk with rfl | hk
  · exact UInt16.toNat_ofNat_of_lt h
  · exact he.counts k hk

theorem runs_read {a : Nat} (h : a < 4096) (c : Cycle) :
    Runs (read a) c (c.machine.memory.read a) c.machine :=
  (runs_access (List.forall_mem_singleton.mpr (by omega)) c).bind fun _ _ ↦ runs_look _ _

theorem runs_write {a : Nat} (h : a < 4096) (b : UInt8) (c : Cycle) :
    Runs (write a b) c () { c.machine with memory := c.machine.memory.write a b } :=
  (runs_access (List.forall_mem_singleton.mpr (by omega)) c).bind fun _ _ ↦ runs_change _ _

theorem runs_readRange {a : Nat} (h : a + len ≤ 4096) (c : Cycle) :
    Runs (readRange a len) c (c.machine.memory.slice a len) c.machine := by
  refine (runs_access ?_ c).bind fun _ _ ↦ runs_look _ _
  intro b hb
  obtain ⟨k, hk, rfl⟩ := List.mem_map.mp hb
  have := List.mem_range.mp hk
  omega

theorem runs_movePc (h : c.machine.pc.toNat + 2 < 0x10000) :
    Runs (movePc 2) c () c.machine.advance := by
  rw [← c.machine.goTo_pc_add_two]
  exact (runs_look _ c).bind fun _ _ ↦ (runs_count h _).bind fun _ _ ↦ runs_change _ _

theorem runs_moveIndex {n : Nat} (h : c.machine.index.toNat + n < 0x10000) :
    Runs (moveIndex n) c () { c.machine with index := c.machine.indexAfter n } := by
  refine (runs_look _ c).bind fun _ _ ↦ ?_
  cases hq : c.machine.dialect.has Dialect.movesIndex with
  | true =>
    have hi : c.machine.indexAfter n = UInt16.ofNat (c.machine.index.toNat + n) := by
      simp [Machine.indexAfter, hq]
    rw [hi]
    exact (runs_look _ _).bind fun _ _ ↦ (runs_count h _).bind fun _ _ ↦ runs_change _ _
  | false =>
    have hi : c.machine.indexAfter n = c.machine.index := by simp [Machine.indexAfter, hq]
    rw [hi]
    exact .of_kept rfl rfl rfl rfl

theorem runs_skipIf (p : Machine → Bool) (h : c.machine.pc.toNat + 2 < 0x10000) :
    Runs (skipIf p) c () (if p c.machine then c.machine.advance else c.machine) := by
  refine (runs_look _ c).bind fun _ _ ↦ ?_
  cases p c.machine with
  | true => exact runs_movePc h
  | false => exact .of_kept rfl rfl rfl rfl

theorem runs_require (hs : Machine.span? i = some len) (hf : m.fault? i = none) (pc : UInt16)
    (as : List Int) (ns : List Nat) : Runs (require pc len) ⟨m.advance, as, ns⟩ () m.advance := by
  have hb : Memory.inBounds m.index.toNat len = true := Machine.inBounds_of_span? hs hf
  refine (runs_look _ _).bind fun _ _ ↦ ?_
  rw [show m.advance.index = m.index from rfl, if_pos hb]
  exact .of_kept rfl rfl rfl rfl

theorem fails_require (hs : Machine.span? i = some len) (hf : m.fault? i = some o)
    (as : List Int) (ns : List Nat) : Fails (require m.pc len) ⟨m.advance, as, ns⟩ o m.advance := by
  rw [Machine.fault?_of_span? hs] at hf
  refine (runs_look _ _).bind_fails fun _ _ ↦ ?_
  rw [show m.advance.index = m.index from rfl]
  by_cases hb : Memory.inBounds m.index.toNat len = true
  · rw [if_pos hb] at hf
    cases hf
  · rw [if_neg hb] at hf ⊢
    cases hf
    exact fails_throw _ _

theorem runs_storeFrom {a n r : Nat} (hr : r + n ≤ 16) (ha : a + r + n ≤ 4096) (c : Cycle) :
    Runs (storeFrom a n r) c () { c.machine with
      memory := c.machine.memory.store (a + r : Nat) ((c.machine.v.toList.drop r).take n) } := by
  induction n generalizing r c with
  | zero => exact .of_kept rfl (by simp [Memory.store]) rfl rfl
  | succ n ih =>
    have hl : r < c.machine.v.toList.length := by simp; omega
    have hv : c.machine.v.toList[r] = c.machine.v[lowDigit r] := by
      simp [lowDigit_of_lt (show r < 16 by omega)]
    have hs : ((a + r : Nat) : Int) + 1 = (a + (r + 1) : Nat) := by omega
    rw [List.drop_eq_getElem_cons hl, List.take_succ_cons, Memory.store, hs, hv]
    exact (runs_look _ c).bind fun _ _ ↦ (runs_write (by omega) _ _).bind fun _ _ ↦
      ih (r := r + 1) (by omega) (by omega) _

def loaded (m : Machine) (a r n : Nat) : Registers :=
  Vector.ofFn fun q ↦
    if r ≤ q.val ∧ q.val < r + n then m.memory.read (a + q.val : Nat) else m.register q

theorem loaded_zero (m : Machine) (a r : Nat) : loaded m a r 0 = m.v := by
  ext q hq
  have h : ¬ (r ≤ q ∧ q < r + 0) := by omega
  simp only [loaded, Machine.register, Vector.getElem_ofFn, if_neg h]
  rfl

theorem loaded_succ (m : Machine) {a r : Nat} (hr : r < 16) (n : Nat) :
    loaded (m.setRegister (lowDigit r) (m.memory.read (a + r : Nat))) a (r + 1) n =
      loaded m a r (n + 1) := by
  ext q hq
  simp only [loaded, Machine.register, Machine.setRegister, lowDigit_of_lt hr,
    Vector.getElem_ofFn, Fin.getElem_fin, Vector.getElem_set]
  by_cases hq : r = q
  · have h : ¬ (r + 1 ≤ q ∧ q < r + 1 + n) := by omega
    have h' : r ≤ q ∧ q < r + (n + 1) := by omega
    rw [if_neg h, if_pos hq, if_pos h', hq]
  · have h : (r + 1 ≤ q ∧ q < r + 1 + n) ↔ (r ≤ q ∧ q < r + (n + 1)) := by omega
    rw [if_neg hq]
    simp only [h]

theorem runs_loadFrom {a n r : Nat} (hr : r + n ≤ 16) (ha : a + r + n ≤ 4096) (c : Cycle) :
    Runs (loadFrom a n r) c () { c.machine with v := loaded c.machine a r n } := by
  induction n generalizing r c with
  | zero => exact .of_kept rfl (by rw [loaded_zero]) rfl rfl
  | succ n ih =>
    rw [← loaded_succ _ (by omega)]
    exact (runs_read (by omega) c).bind fun _ _ ↦ (runs_change _ _).bind fun _ _ ↦
      ih (r := r + 1) (by omega) (by omega) _

/-- An instruction without a fault has its effect on the machine before `pc` moved on. -/
theorem runs_perform (hpc : m.pc.toNat + 2 ≤ 4096) (hf : m.fault? i = none) (as : List Int)
    (ns : List Nat) : Runs (perform m.pc i) ⟨m.advance, as, ns⟩ () (m.execute i) := by
  have hskip : m.advance.pc.toNat + 2 < 0x10000 := by
    rw [← m.goTo_pc_add_two]
    simp [Machine.goTo]
    omega
  cases i with
  | clearScreen => exact .of_kept rfl rfl rfl rfl
  | ret =>
    refine (runs_look _ _).bind fun _ _ ↦ ?_
    rw [Machine.execute, show m.advance.stack = m.stack from rfl]
    cases hs : m.stack with
    | nil => simp [Machine.fault?, hs] at hf
    | cons a rest => exact .of_kept rfl rfl rfl rfl
  | jump a => exact .of_kept rfl rfl rfl rfl
  | call a =>
    have hlen : ¬ Machine.stackLimit ≤ m.stack.length := by simpa [Machine.fault?] using hf
    refine (runs_look _ _).bind fun _ _ ↦ ?_
    rw [show m.advance.stack = m.stack from rfl, if_neg hlen]
    exact .of_kept rfl rfl rfl rfl
  | skipIfByte x kk => exact runs_skipIf _ hskip
  | skipUnlessByte x kk => exact runs_skipIf _ hskip
  | skipIfEqual x y => exact runs_skipIf _ hskip
  | skipUnlessEqual x y => exact runs_skipIf _ hskip
  | setByte x kk => exact .of_kept rfl rfl rfl rfl
  | addByte x kk => exact .of_kept rfl rfl rfl rfl
  | arith op x y => exact .of_kept rfl (by cases op <;> rfl) rfl rfl
  | setIndex a => exact .of_kept rfl rfl rfl rfl
  | jumpOffset x a => exact .of_kept rfl rfl rfl rfl
  | random x kk => exact .of_kept rfl rfl rfl rfl
  | draw x y rows =>
    have hr := Machine.span_le rfl hf
    refine (runs_require rfl hf _ _ _).bind fun _ _ ↦ (runs_look _ _).bind fun _ _ ↦ ?_
    refine (runs_readRange (a := m.index.toNat) (by omega) _).bind fun _ _ ↦ ?_
    exact .of_kept rfl rfl rfl rfl
  | skipIfKey x => exact runs_skipIf _ hskip
  | skipUnlessKey x => exact runs_skipIf _ hskip
  | readDelay x => exact .of_kept rfl rfl rfl rfl
  | waitKey x =>
    refine (runs_look _ _).bind fun _ _ ↦ ?_
    rw [Machine.execute, show m.advance.keypad = m.keypad from rfl]
    cases m.keypad.lowest? with
    | none => exact .of_kept rfl rfl rfl rfl
    | some key => exact .of_kept rfl rfl rfl rfl
  | setDelay x => exact .of_kept rfl rfl rfl rfl
  | setSound x => exact .of_kept rfl rfl rfl rfl
  | addIndex x => exact .of_kept rfl rfl rfl rfl
  | pointToGlyph x => exact .of_kept rfl rfl rfl rfl
  | storeDecimal x =>
    have hr := Machine.span_le rfl hf
    refine (runs_require rfl hf _ _ _).bind fun _ _ ↦ (runs_look _ _).bind fun _ _ ↦
      (runs_look _ _).bind fun _ _ ↦ ?_
    exact (runs_write (a := m.index.toNat) (by omega) _ _).bind fun _ _ ↦
      (runs_write (a := m.index.toNat + 1) (by omega) _ _).bind fun _ _ ↦
        runs_write (a := m.index.toNat + 2) (by omega) _ _
  | storeRegisters x =>
    have hr := Machine.span_le rfl hf
    refine (runs_require rfl hf _ _ _).bind fun _ _ ↦ (runs_look _ _).bind fun _ _ ↦ ?_
    refine (runs_storeFrom (a := m.index.toNat) (by omega) (by omega) _).bind fun _ _ ↦ ?_
    exact runs_moveIndex (show m.index.toNat + (x.val + 1) < 0x10000 by omega)
  | loadRegisters x =>
    have hr := Machine.span_le rfl hf
    have hv : loaded m.advance m.index.toNat 0 (x.val + 1) = Vector.ofFn fun r ↦
        if r ≤ x then m.memory.read (m.index.toNat + r.val : Nat) else m.v[r] := by
      have h (r : Register) : (0 ≤ r.val ∧ r.val < 0 + (x.val + 1)) ↔ r ≤ x := by
        rw [Fin.le_def]
        omega
      simp only [loaded, h]
      rfl
    rw [Machine.execute, ← hv]
    refine (runs_require rfl hf _ _ _).bind fun _ _ ↦ (runs_look _ _).bind fun _ _ ↦ ?_
    refine (runs_loadFrom (a := m.index.toNat) (by omega) (by omega) _).bind fun _ _ ↦ ?_
    exact runs_moveIndex (show m.index.toNat + (x.val + 1) < 0x10000 by omega)

/-- An instruction with a fault fails before it changes anything. -/
theorem fails_perform (hf : m.fault? i = some o) (as : List Int) (ns : List Nat) :
    Fails (perform m.pc i) ⟨m.advance, as, ns⟩ o m.advance := by
  cases i with
  | ret =>
    refine (runs_look _ _).bind_fails fun _ _ ↦ ?_
    rw [show m.advance.stack = m.stack from rfl]
    cases hs : m.stack with
    | nil =>
      have ho : o = .stackEmpty m.pc.toNat := by simpa [Machine.fault?, hs] using hf.symm
      rw [ho]
      exact fails_throw _ _
    | cons a rest => simp [Machine.fault?, hs] at hf
  | call a =>
    have hlen : Machine.stackLimit ≤ m.stack.length ∧ .stackOverflow m.pc.toNat = o := by
      simpa [Machine.fault?] using hf
    refine (runs_look _ _).bind_fails fun _ _ ↦ ?_
    rw [show m.advance.stack = m.stack from rfl, if_pos hlen.1, ← hlen.2]
    exact (fails_throw _ _).bind _
  | draw x y rows => exact (fails_require rfl hf as ns).bind _
  | storeDecimal x => exact (fails_require rfl hf as ns).bind _
  | storeRegisters x => exact (fails_require rfl hf as ns).bind _
  | loadRegisters x => exact (fails_require rfl hf as ns).bind _
  | _ => cases hf

theorem runs_fetch (h : Memory.inBounds m.pc.toNat 2 = true) (as : List Int) (ns : List Nat) :
    Runs (fetch m.pc) ⟨m, as, ns⟩ (m.memory.readWord m.pc.toNat) m := by
  have hr := Memory.inBounds_iff.mp h
  have hn : Memory.next m.pc.toNat = (m.pc.toNat + 1 : Nat) :=
    Memory.next_natCast (Nat.lt_of_le_of_lt (m := 4096) (by omega) (by decide))
  rw [fetch, if_pos h, Memory.readWord, hn]
  refine (runs_read (a := m.pc.toNat) (by omega) _).bind fun _ _ ↦ ?_
  exact (runs_read (a := m.pc.toNat + 1) (by omega) _).bind fun _ _ ↦ .of_kept rfl rfl rfl rfl

theorem fails_fetch (h : Memory.inBounds m.pc.toNat 2 = false) (as : List Int) (ns : List Nat) :
    Fails (fetch m.pc) ⟨m, as, ns⟩ (.outOfBounds m.pc.toNat m.pc.toNat) m := by
  rw [fetch, if_neg (by simp [h])]
  exact (fails_throw _ _).bind _

theorem cycle_of_runs (h : Runs step ⟨m, [], []⟩ () m') :
    ∃ c, m.cycle = (c, .success) ∧ c.machine = m' ∧ c.Exact := by
  obtain ⟨c, hc, hm, he⟩ := h
  refine ⟨c, ?_, hm, he (exact_start m)⟩
  rw [Machine.cycle, show step ⟨m, [], []⟩ = .ok () c from hc]

theorem cycle_of_fails (h : Fails step ⟨m, [], []⟩ o m') :
    ∃ c, m.cycle = (c, o) ∧ c.machine = m' ∧ c.Exact := by
  obtain ⟨c, hc, hm, he⟩ := h
  refine ⟨c, ?_, hm, he (exact_start m)⟩
  rw [Machine.cycle, show step ⟨m, [], []⟩ = .error o c from hc]

theorem cycle_of_stepsTo (h : m.StepsTo m' o) :
    ∃ c, m.cycle = (c, o) ∧ c.machine = m' ∧ c.Exact := by
  cases h with
  | idle hr =>
    refine cycle_of_fails ((runs_look _ _).bind_fails fun _ _ ↦ ?_)
    simp only [hr]
    exact (fails_throw _ _).bind _
  | noWord hr hw =>
    refine cycle_of_fails ((runs_look _ _).bind_fails fun _ _ ↦ ?_)
    simp only [hr]
    refine (runs_look _ _).bind_fails fun as ns ↦ ?_
    exact (fails_fetch (Machine.fetch?_eq_none_iff.mp hw) as ns).bind _
  | noInstruction hr hw hi =>
    obtain ⟨hb, rfl⟩ := Machine.fetch?_eq_some_iff.mp hw
    refine cycle_of_fails ((runs_look _ _).bind_fails fun _ _ ↦ ?_)
    simp only [hr]
    refine (runs_look _ _).bind_fails fun as ns ↦ (runs_fetch hb as ns).bind_fails fun _ _ ↦ ?_
    rw [hi]
    exact fails_throw _ _
  | fault hr hw hi ho =>
    obtain ⟨hb, rfl⟩ := Machine.fetch?_eq_some_iff.mp hw
    have hpc := Machine.pc_le_of_fetch? hw
    refine cycle_of_fails ((runs_look _ _).bind_fails fun _ _ ↦ ?_)
    simp only [hr]
    refine (runs_look _ _).bind_fails fun as ns ↦ (runs_fetch hb as ns).bind_fails fun as ns ↦ ?_
    rw [hi]
    refine (runs_movePc (show m.pc.toNat + 2 < 0x10000 by omega)).bind_fails fun as ns ↦ ?_
    -- Only `pc` has moved when the instruction fails, so putting it back restores the machine.
    exact (fails_perform ho as ns).tryCatch fun _ _ ↦
      (runs_change _ _).bind_fails fun _ _ ↦ fails_throw _ _
  | execute hr hw hi ho =>
    obtain ⟨hb, rfl⟩ := Machine.fetch?_eq_some_iff.mp hw
    have hpc := Machine.pc_le_of_fetch? hw
    refine cycle_of_runs ((runs_look _ _).bind fun _ _ ↦ ?_)
    simp only [hr]
    refine (runs_look _ _).bind fun as ns ↦ (runs_fetch hb as ns).bind fun as ns ↦ ?_
    rw [hi]
    refine (runs_movePc (show m.pc.toNat + 2 < 0x10000 by omega)).bind fun as ns ↦ ?_
    exact (runs_perform hpc ho as ns).tryCatch _

end Cycle

namespace Machine

theorem cycle_spec (m : Machine) :
    ∃ c, m.cycle = (c, m.step.2) ∧ c.machine = m.step.1 ∧ c.Exact :=
  Cycle.cycle_of_stepsTo m.stepsTo

theorem step_eq_cycle (m : Machine) : m.step = (m.cycle.1.machine, m.cycle.2) := by
  obtain ⟨c, hc, hm, -⟩ := m.cycle_spec
  rw [hc]
  exact Prod.ext hm.symm rfl

theorem cycle_exact (m : Machine) : m.cycle.1.Exact := by
  obtain ⟨c, hc, -, he⟩ := m.cycle_spec
  rw [hc]
  exact he

theorem run_replicate_step {m : Machine} (h : m.step.1 = m) (n : Nat) :
    m.run (List.replicate n .step) = m := by
  induction n with
  | zero => rfl
  | succ n ih => rw [List.replicate_succ, run_cons, apply, h, ih]

/-- A step that fails leaves every part of the machine as it was, random source included, and tells
the address where it stands. Any number of further steps do and tell the same. -/
theorem failed_step_atomic_and_sticky (m : Machine) (h : m.cycle.2 ≠ .success) :
    m.cycle.1.machine = m ∧ m.step = (m, m.cycle.2) ∧ (∀ pc ∈ m.cycle.2.pc?, pc = m.pc.toNat) ∧
      ∀ n, m.run (List.replicate n .step) = m ∧
        (m.run (List.replicate n .step)).cycle = m.cycle := by
  have hs := m.step_eq_cycle
  have ho : m.step.2 = m.cycle.2 := congrArg Prod.snd hs
  have hm : m.step.1 = m := m.stepsTo.eq_of_ne_success (ho ▸ h)
  have hr := run_replicate_step hm
  refine ⟨(congrArg Prod.fst hs).symm.trans hm, Prod.ext hm ho, ho ▸ m.stepsTo.pc_eq, fun n ↦ ?_⟩
  exact ⟨hr n, by rw [hr n]⟩

/-- A sprite of five rows from the last byte of memory on. -/
theorem sprite_past_the_end_fails :
    let m := (new .plain (.cycle [7])).run [.load (.ok #[0xAF, 0xFF, 0xD0, 0x15]), .step]
    m.cycle.2 = .outOfBounds 0x202 0xFFF ∧ m.cycle.1.machine = m ∧
      ∀ n, (m.run (List.replicate n .step)).cycle.2 = .outOfBounds 0x202 0xFFF := by
  intro m
  have ho : m.cycle.2 = .outOfBounds 0x202 0xFFF := by decide +kernel
  obtain ⟨hm, -, -, hr⟩ := failed_step_atomic_and_sticky m (by rw [ho]; decide)
  exact ⟨ho, hm, fun n ↦ by rw [(hr n).2, ho]⟩

end Machine

end Chip8
