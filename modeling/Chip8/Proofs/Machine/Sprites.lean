import Mathlib.Data.Finset.Card
import Mathlib.Data.Finset.Prod
import Mathlib.Logic.Basic
import Chip8.Proofs.Machine.Bounds
import Chip8.Proofs.Machine.Footprint
import Chip8.Proofs.Screen.Flips

namespace Chip8.Machine

variable {m : Machine} {w : UInt16} {n px py : Nat}

def setBits (m : Machine) (n : Nat) : Finset (Nat × Nat) :=
  (Finset.range n ×ˢ Finset.range 8).filter fun b ↦
    (m.memory.read (m.index.toNat + b.1 : Nat)).toNat.testBit (7 - b.2)

def spriteOf (m : Machine) (w : UInt16) : Finset (Nat × Nat) := m.setBits (w.toNat % 0x10)

def Covers (m : Machine) (w : UInt16) (px py : Nat) : Prop :=
  ∃ b ∈ m.spriteOf w, px = ((m.register (Word.x w)).toNat + b.2) % 64 ∧
    py = ((m.register (Word.y w)).toNat + b.1) % 32

def collisions (m : Machine) (w : UInt16) : Finset (Nat × Nat) :=
  (m.spriteOf w).filter fun b ↦ m.screen.frame.pixel
    ((m.register (Word.x w)).toNat + b.2) ((m.register (Word.y w)).toNat + b.1)

def WentOut (m m' : Machine) : Prop :=
  ∃ px < 64, ∃ py < 32, m.screen.frame.pixel px py = true ∧ m'.screen.frame.pixel px py = false

structure Drawn (m : Machine) (w : UInt16) (m' : Machine) : Prop where
  pixel_iff : ∀ px < 64, ∀ py < 32,
    (m'.screen.frame.pixel px py = true ↔
      Xor (m.screen.frame.pixel px py = true) (m.Covers w px py))
  flag_eq : m.WentOut m' ∧ m'.register flagRegister = 1 ∨
    ¬m.WentOut m' ∧ m'.register flagRegister = 0
  lit_eq : m'.screen.frame.lit + 2 * (m.collisions w).card =
    m.screen.frame.lit + (m.spriteOf w).card
  revision_eq : m'.screen.revision = m.screen.revision + 1
  register_eq : ∀ r ≠ flagRegister, m'.register r = m.register r
  pc_eq : m'.pc.toNat = m.pc.toNat + 2
  rest_eq : m' = { m with screen := m'.screen, v := m'.v, pc := m'.pc }

theorem mem_setBits (h : m.index.toNat + n ≤ 4096) {b : Nat × Nat} :
    b ∈ m.setBits n ↔ b ∈ Frame.spriteBits (m.memory.slice m.index.toNat n) := by
  obtain ⟨r, c⟩ := b
  rw [Frame.mem_spriteBits, Memory.slice_natCast _ h]
  simp only [setBits, Finset.mem_filter, Finset.mem_product, Finset.mem_range, List.getElem?_map,
    Option.map_eq_some_iff, List.getElem?_eq_some_iff, List.length_range, List.getElem_range]
  constructor
  · rintro ⟨⟨hr, hc⟩, hb⟩
    exact ⟨_, ⟨r, ⟨hr, rfl⟩, rfl⟩, hc, hb⟩
  · rintro ⟨_, ⟨_, ⟨hr, rfl⟩, rfl⟩, hc, hb⟩
    exact ⟨⟨hr, hc⟩, hb⟩

theorem card_filter_setBits (h : m.index.toNat + n ≤ 4096) (p : Nat × Nat → Bool) :
    ((m.setBits n).filter fun b ↦ p b).card =
      (Frame.spriteBits (m.memory.slice m.index.toNat n)).countP p := by
  have he : (m.setBits n).filter (fun b ↦ p b) =
      ((Frame.spriteBits (m.memory.slice m.index.toNat n)).filter p).toFinset := by
    ext b
    rw [Finset.mem_filter, mem_setBits h, List.mem_toFinset, List.mem_filter]
  rw [he, List.toFinset_card_of_nodup ((Frame.nodup_spriteBits _).filter p),
    List.countP_eq_length_filter]

theorem card_setBits (h : m.index.toNat + n ≤ 4096) :
    (m.setBits n).card = (Frame.spriteBits (m.memory.slice m.index.toNat n)).length := by
  have hc := card_filter_setBits h fun _ ↦ true
  rwa [Finset.filter_true_of_mem fun _ _ ↦ rfl, List.countP_true] at hc

theorem covers_iff (h : m.index.toNat + w.toNat % 0x10 ≤ 4096) :
    m.Covers w px py ↔
      ∃ b ∈ Frame.spriteBits (m.memory.slice m.index.toNat (w.toNat % 0x10 : Nat)),
        px = ((m.register (Word.x w)).toNat + b.2) % 64 ∧
          py = ((m.register (Word.y w)).toNat + b.1) % 32 :=
  exists_congr fun _ ↦ and_congr_left fun _ ↦ mem_setBits h

theorem register_add_le (m : Machine) (r : Register) :
    (m.register r).toNat + 32 ≤ Whole.exactLimit := by
  have hl : 0x1000 ≤ Whole.exactLimit := by decide
  have := (m.register r).toNat_lt
  omega

theorem drawn_execute (hw : m.pc.toNat + 2 ≤ 4096)
    (hi : m.index.toNat + w.toNat % 0x10 ≤ 4096) :
    m.Drawn w (m.execute (.draw (Word.x w) (Word.y w) (Word.low4 w))) := by
  -- Coordinates are bytes and a sprite has at most fifteen rows, so no sum is rounded and no pixel is
  -- touched twice.
  have hx : (m.register (Word.x w)).toNat + 8 ≤ Whole.exactLimit := by
    have := m.register_add_le (Word.x w)
    omega
  have hy := m.register_add_le (Word.y w)
  have hr : (m.memory.slice m.index.toNat (w.toNat % 0x10 : Nat)).length ≤ 32 := by
    rw [Memory.slice_natCast _ hi, List.length_map, List.length_range]
    omega
  let m' := m.execute (.draw (Word.x w) (Word.y w) (Word.low4 w))
  let drawn := m.screen.frame.draw (m.register (Word.x w)).toNat (m.register (Word.y w)).toNat
    (m.memory.slice m.index.toNat (w.toNat % 0x10 : Nat))
  have hf : m'.screen.frame = drawn.1 := rfl
  have hv : m'.register flagRegister = if drawn.2 then 1 else 0 := Vector.getElem_set_self _
  have hd : drawn.2 = true ↔ m.WentOut m' := Frame.hit_draw hx hy hr m.screen.frame
  change m.Drawn w m'
  constructor
  case pixel_iff =>
    intro px hpx py hpy
    rw [hf, Frame.pixel_draw hx hy hr m.screen.frame hpx hpy, covers_iff hi]
  case flag_eq =>
    rw [← hd, hv]
    cases drawn.2 <;> simp
  case lit_eq =>
    have h := Frame.lit_draw hx hy hr m.screen.frame
    rw [← card_setBits hi, ← card_filter_setBits hi] at h
    exact h
  case revision_eq => rfl
  case register_eq =>
    intro r hne
    exact Vector.getElem_set_ne flagRegister.isLt r.isLt fun h ↦ hne (Fin.ext h.symm)
  case pc_eq => exact toNat_pc_add_two (show m.pc.toNat + 2 < 0x10000 by omega)
  case rest_eq => rfl

/-- A step at `Dxyn` whose sprite is within memory draws exactly that sprite, also where the
registers that tell its place hold the flag. -/
theorem draw_exact (hr : m.running = true) (hw : m.fetch? = some w)
    (hd : w.toNat / 0x1000 = 0xD) (hi : m.index.toNat + w.toNat % 0x10 ≤ 0x1000) :
    ∃ m', m.step = (m', .success) ∧ m.Drawn w m' := by
  have hf : m.fault? (.draw (Word.x w) (Word.y w) (Word.low4 w)) = none := by
    rw [fault?_of_span? rfl, if_pos]
    rw [Memory.inBounds_iff, show (Word.low4 w).val = w.toNat % 0x10 from rfl]
    omega
  refine ⟨_, ?_, drawn_execute (pc_le_of_fetch? hw) hi⟩
  simp only [step, hr, hw, decode?_draw hd, hf]
  rfl

/-- The sprite goes over both edges, `VF` is both its column and its row, and the two upper rows of
three put out what was there. -/
theorem draw_over_edges_exact :
    let m := (new .plain (.cycle [])).run
      [.load (.ok #[0x6F, 0x3E, 0xA2, 0x0A, 0xDF, 0xF2, 0x6F, 0x3E, 0xDF, 0xF3, 0xC1, 0x80, 0xF0]),
        .step, .step, .step, .step]
    m.running = true ∧ m.fetch? = some 0xDFF3 ∧ m.register flagRegister = 0x3E ∧
      m.screen.frame.pixel 62 30 = true ∧
      ∃ m', m.step = (m', .success) ∧ m.Drawn 0xDFF3 m' ∧ m'.register flagRegister = 1 ∧
        m'.screen.frame.pixel 62 30 = false ∧ m'.screen.frame.pixel 1 0 = true := by
  intro m
  have hm : m.running = true ∧ m.fetch? = some 0xDFF3 ∧ m.index = 0x20A ∧
      m.register flagRegister = 0x3E ∧ m.screen.frame.pixel 62 30 = true := by decide +kernel
  have hm' : m.step.1.register flagRegister = 1 ∧ m.step.1.screen.frame.pixel 62 30 = false ∧
      m.step.1.screen.frame.pixel 1 0 = true := by decide +kernel
  obtain ⟨hr, hw, hi, hf, hp⟩ := hm
  obtain ⟨m', hs, hd⟩ := draw_exact hr hw (by decide) (by rw [hi]; decide)
  rw [show m.step.1 = m' from congrArg Prod.fst hs] at hm'
  exact ⟨hr, hw, hf, hp, m', hs, hd, hm'⟩

end Chip8.Machine
