import Chip8.Proofs.Terminal.KeyNames
import Chip8.Proofs.Terminal.Moments

namespace Chip8

/-- What was received since the program was last started, the latest first, and the time now. -/
structure KeyLog where
  clock : Int
  received : List (String × Int)

namespace KeyLog

def next (l : KeyLog) : HostAction → KeyLog
  | .key (.text name) =>
    if Keyboard.commandFor? name = some .reset then { l with received := [] }
    else { l with received := (name, l.clock) :: l.received }
  | .key (.half _) => l
  | .frame => l
  | .wait ms => { l with clock := l.clock + ms }

def ofActions (as : List HostAction) : KeyLog := as.foldl next ⟨0, []⟩

theorem ofActions_concat (as : List HostAction) (a : HostAction) :
    ofActions (as ++ [a]) = (ofActions as).next a := by
  simp [ofActions]

theorem mem_of_received {as : List HostAction} {name : String} {t : Int}
    (h : (name, t) ∈ (ofActions as).received) : .key (.text name) ∈ as := by
  induction as using List.reverseRecOn with
  | nil => cases h
  | append_singleton as a ih =>
    rw [ofActions_concat] at h
    rw [List.mem_append, List.mem_singleton]
    unfold next at h
    split at h
    · split at h
      · cases h
      · obtain hn | hm := List.mem_cons.mp h
        · exact .inr (by rw [(Prod.mk.inj hn).1])
        · exact .inl (ih hm)
    all_goals exact .inl (ih h)

def Recent (l : KeyLog) (k : Key) : Prop :=
  ∃ name t, Keyboard.keyFor? name = some k ∧ (name, t) ∈ l.received ∧ l.clock < t + 150

/-- A key that stands for `k` was last received less than the hold time ago, and since then the hold
of no key that stands for `k` has ended. -/
def Undisturbed (l : KeyLog) (k : Key) : Prop :=
  ∃ name t, Keyboard.keyFor? name = some k ∧ l.received.lookup name = some t ∧ l.clock < t + 150 ∧
    ∀ name' t', Keyboard.keyFor? name' = some k → l.received.lookup name' = some t' →
      t' + 150 ≤ t ∨ l.clock < t' + 150

variable {l : KeyLog} {k : Key} {name : String} {ms : Int}

def receive (l : KeyLog) (name : String) : KeyLog :=
  { l with received := (name, l.clock) :: l.received }

theorem lookup_receive (l : KeyLog) (name name' : String) :
    (l.receive name).received.lookup name' =
      if name' = name then some l.clock else l.received.lookup name' := by
  by_cases h : name' = name
  · simp [receive, h]
  · simp [receive, List.lookup_cons, h, beq_eq_false_iff_ne.mpr h]

structure Ordered (l : KeyLog) : Prop where
  past : ∀ p ∈ l.received, p.2 ≤ l.clock
  latestFirst : l.received.Pairwise fun p q ↦ q.2 ≤ p.2

theorem ordered_nil (clock : Int) : (KeyLog.mk clock []).Ordered where
  past p hp := by cases hp
  latestFirst := .nil

theorem Ordered.receive (h : l.Ordered) (name : String) : (l.receive name).Ordered where
  past p hp := by
    obtain rfl | hp := List.mem_cons.mp hp
    · exact Int.le_refl _
    · exact h.past p hp
  latestFirst := .cons h.past h.latestFirst

theorem Ordered.wait (h : l.Ordered) (hms : 0 ≤ ms) : (l.next (.wait ms)).Ordered where
  past p hp := by
    have := h.past p hp
    simp only [next]
    omega
  latestFirst := h.latestFirst

theorem Ordered.le_clock {t : Int} (h : l.Ordered) (ht : l.received.lookup name = some t) :
    t ≤ l.clock :=
  h.past _ (Keyboard.mem_of_lookup ht)

theorem Ordered.exists_lookup {t : Int} (h : l.Ordered) (hm : (name, t) ∈ l.received) :
    ∃ t', l.received.lookup name = some t' ∧ t ≤ t' := by
  obtain ⟨-, hp⟩ := h
  generalize l.received = ps at hm hp
  induction hp with
  | nil => cases hm
  | @cons p ps hle _ ih =>
    obtain ⟨name', last⟩ := p
    by_cases hn : name = name'
    · refine ⟨last, by rw [hn, List.lookup_cons_self], ?_⟩
      obtain heq | hm := List.mem_cons.mp hm
      · exact Int.le_of_eq (Prod.mk.inj heq).2
      · exact hle _ hm
    · obtain heq | hm := List.mem_cons.mp hm
      · exact absurd (Prod.mk.inj heq).1 hn
      · obtain ⟨t', ht, hle'⟩ := ih hm
        exact ⟨t', by rwa [List.lookup_cons, beq_eq_false_iff_ne.mpr hn], hle'⟩

theorem recent_of_undisturbed (h : l.Undisturbed k) : l.Recent k := by
  obtain ⟨name, t, hk, ht, hc, -⟩ := h
  exact ⟨name, t, hk, Keyboard.mem_of_lookup ht, hc⟩

/-- Where only one key was received that stands for `k`, no other can disturb it. -/
theorem undisturbed_of_recent (hl : l.Ordered)
    (hone : ∀ p ∈ l.received, ∀ q ∈ l.received,
      Keyboard.keyFor? p.1 = some k → Keyboard.keyFor? q.1 = some k → p.1 = q.1)
    (h : l.Recent k) : l.Undisturbed k := by
  obtain ⟨name, t, hk, hm, hc⟩ := h
  obtain ⟨last, hlast, hle⟩ := hl.exists_lookup hm
  refine ⟨name, last, hk, hlast, by omega, fun name' t' hk' ht' ↦ .inr ?_⟩
  obtain rfl : name' = name := hone _ (Keyboard.mem_of_lookup ht') _ hm hk' hk
  rw [hlast, Option.some.injEq] at ht'
  omega

theorem undisturbed_receive (hk : Keyboard.keyFor? name = some k) :
    (l.receive name).Undisturbed k := by
  refine ⟨name, l.clock, hk, by rw [lookup_receive, if_pos rfl],
    Int.lt_add_of_pos_right _ (by decide), ?_⟩
  intro name' t' _ _
  exact (Int.lt_or_le _ _).symm

theorem undisturbed_receive_iff (hk : Keyboard.keyFor? name ≠ some k) :
    (l.receive name).Undisturbed k ↔ l.Undisturbed k := by
  have hl (name' : String) (h : Keyboard.keyFor? name' = some k) :
      (l.receive name).received.lookup name' = l.received.lookup name' := by
    rw [lookup_receive, if_neg]
    rintro rfl
    exact hk h
  constructor
  · rintro ⟨n, t, hn, ht, hc, ho⟩
    rw [hl n hn] at ht
    exact ⟨n, t, hn, ht, hc, fun n' t' hn' ht' ↦ ho n' t' hn' ((hl n' hn').trans ht')⟩
  · rintro ⟨n, t, hn, ht, hc, ho⟩
    refine ⟨n, t, hn, (hl n hn).trans ht, hc, fun n' t' hn' ht' ↦ ?_⟩
    rw [hl n' hn'] at ht'
    exact ho n' t' hn' ht'

theorem not_undisturbed_nil (clock : Int) (k : Key) : ¬(KeyLog.mk clock []).Undisturbed k := by
  rintro ⟨name, t, -, ht, -⟩
  cases ht

theorem undisturbed_wait_iff (hl : l.Ordered) (hms : 0 ≤ ms) :
    (l.next (.wait ms)).Undisturbed k ↔ l.Undisturbed k ∧
      ∀ name t, Keyboard.keyFor? name = some k → l.received.lookup name = some t →
        l.clock < t + 150 → l.clock + ms < t + 150 := by
  constructor
  · rintro ⟨n, t, hn, ht, hc, ho⟩
    simp only [next] at ht hc ho
    have hpast := hl.le_clock ht
    refine ⟨⟨n, t, hn, ht, by omega, fun n' t' hn' ht' ↦ ?_⟩, fun n' t' hn' ht' hc' ↦ ?_⟩
    · have := ho n' t' hn' ht'
      omega
    · have := ho n' t' hn' ht'
      omega
  · rintro ⟨⟨n, t, hn, ht, hc, ho⟩, hw⟩
    refine ⟨n, t, hn, ht, hw n t hn ht hc, fun n' t' hn' ht' ↦ ?_⟩
    have := ho n' t' hn' ht'
    have := hw n' t' hn' ht'
    simp only [next]
    omega

end KeyLog

end Chip8
