import Mathlib.Data.List.Nodup
import Mathlib.Data.Nat.Bits
import Chip8.Screen

namespace Chip8.Frame

variable {f : Frame} {hit : Bool} {ps : List (Fin 2048)} {x y r c : Nat} {rows : List UInt8}

theorem get_flip (f : Frame) (p q : Fin 2048) :
    (f.flip p).get q = if p = q then !f.get p else f.get q := by
  have h : (f.flip p).get q = if p.val = q.val then !f.get p else f.get q := Vector.getElem_set ..
  simpa only [Fin.val_inj] using h

theorem get_flipAll (f : Frame) (hit : Bool) (ps : List (Fin 2048)) (q : Fin 2048) :
    (flipAll f hit ps).1.get q = (f.get q ^^ (ps.count q).bodd) := by
  induction ps generalizing f hit with
  | nil => simp [flipAll]
  | cons p ps ih =>
    rw [flipAll_cons, ih, get_flip]
    by_cases h : p = q
    · subst h
      rw [if_pos rfl, List.count_cons_self, Nat.bodd_succ, Bool.not_xor, Bool.xor_not]
    · rw [if_neg h, List.count_cons_of_ne h]

theorem get_flip_of_mem {p q : Fin 2048} (hp : p ∉ ps) (hq : q ∈ ps) (f : Frame) :
    (f.flip p).get q = f.get q := by
  rw [get_flip, if_neg]
  rintro rfl
  exact hp hq

theorem hit_flipAll (hps : ps.Nodup) (f : Frame) (hit : Bool) :
    (flipAll f hit ps).2 = true ↔ hit = true ∨ ∃ p ∈ ps, f.get p = true := by
  induction ps generalizing f hit with
  | nil => simp [flipAll]
  | cons p ps ih =>
    obtain ⟨hp, hps⟩ := List.nodup_cons.mp hps
    have hrest : (∃ q ∈ ps, (f.flip p).get q = true) ↔ ∃ q ∈ ps, f.get q = true :=
      exists_congr fun q ↦ and_congr_right fun hq ↦ by rw [get_flip_of_mem hp hq]
    simp only [flipAll_cons, ih hps, hrest, Bool.or_eq_true, List.mem_cons, exists_eq_or_imp,
      or_assoc]

theorem lit_flip (f : Frame) (p : Fin 2048) :
    (f.flip p).lit + 2 * (if f.get p = true then 1 else 0) = f.lit + 1 := by
  have hpos (h : f.get p = true) : 0 < f.countP id :=
    Vector.countP_pos_iff.mpr ⟨f.get p, Vector.getElem_mem p.isLt, h⟩
  have hget : f[p.val] = f.get p := rfl
  rw [flip, lit, lit, Vector.countP_set, hget]
  by_cases h : f.get p = true
  · have := hpos h
    simp only [id, h, if_true, Bool.not_true, Bool.false_eq_true, if_false]
    omega
  · rw [Bool.not_eq_true] at h
    simp only [id, h, Bool.not_false, Bool.false_eq_true, if_false, if_true]
    omega

theorem lit_flipAll (hps : ps.Nodup) (f : Frame) (hit : Bool) :
    (flipAll f hit ps).1.lit + 2 * ps.countP f.get = f.lit + ps.length := by
  induction ps generalizing f hit with
  | nil => simp [flipAll]
  | cons p ps ih =>
    obtain ⟨hp, hps⟩ := List.nodup_cons.mp hps
    have hrest : ps.countP (f.flip p).get = ps.countP f.get :=
      List.countP_congr fun q hq ↦ by rw [get_flip_of_mem hp hq]
    have h := ih hps (f.flip p) (hit || f.get p)
    have hl := f.lit_flip p
    rw [hrest] at h
    rw [flipAll_cons, List.countP_cons, List.length_cons]
    omega

def spriteBits (rows : List UInt8) : List (Nat × Nat) :=
  rows.zipIdx.flatMap fun (row, r) ↦ (rowColumns row).map fun col ↦ (r, col)

theorem mem_rowColumns {row : UInt8} : c ∈ rowColumns row ↔ c < 8 ∧ row.toNat.testBit (7 - c) := by
  rw [rowColumns, List.mem_filter, List.mem_range]

theorem mem_spriteBits :
    (r, c) ∈ spriteBits rows ↔ ∃ row, rows[r]? = some row ∧ c < 8 ∧ row.toNat.testBit (7 - c) := by
  simp only [spriteBits, List.mem_flatMap, List.mem_map, mem_rowColumns, Prod.exists,
    List.mem_zipIdx_iff_getElem?, Prod.mk.injEq]
  constructor
  · rintro ⟨row, r', hr, c', hc, rfl, rfl⟩
    exact ⟨row, hr, hc⟩
  · rintro ⟨row, hr, hc⟩
    exact ⟨row, r, hr, c, hc, rfl, rfl⟩

theorem nodup_spriteBits (rows : List UInt8) : (spriteBits rows).Nodup := by
  rw [spriteBits, List.nodup_flatMap]
  constructor
  · rintro ⟨row, r⟩ -
    refine List.Nodup.map ?_ (List.nodup_range.filter _)
    intro c c' h
    exact (Prod.mk.inj h).2
  · have hi : (rows.zipIdx.map Prod.snd).Nodup := by
      rw [List.zipIdx_map_snd]
      exact List.nodup_range'
    refine (List.pairwise_map.mp hi).imp ?_
    intro p q hpq b hb hb'
    obtain ⟨c, -, rfl⟩ := List.mem_map.mp hb
    obtain ⟨c', -, he⟩ := List.mem_map.mp hb'
    exact hpq (Prod.mk.inj he).1.symm

theorem spritePlaces_eq_map (x y : Nat) (rows : List UInt8) :
    spritePlaces x y rows =
      (spriteBits rows).map fun b ↦ place (Whole.sum x b.2) (Whole.sum y b.1) := by
  simp only [spritePlaces, spriteBits, List.map_flatMap, List.map_map, Function.comp_def]

theorem place_eq_iff {x' y' : Nat} : place x y = place x' y' ↔ x % 64 = x' % 64 ∧ y % 32 = y' % 32 := by
  simp only [place, Fin.mk.injEq]
  omega

theorem pixel_eq (f : Frame) (x y : Nat) : f.pixel x y = f.get (place x y) := rfl

theorem place_mod_div (q : Fin 2048) : place (q.val % 64) (q.val / 64) = q := by
  simp only [place, Fin.ext_iff]
  omega

theorem get_flipAll_of_nodup (hps : ps.Nodup) (f : Frame) (hit : Bool) (q : Fin 2048) :
    (flipAll f hit ps).1.get q = true ↔ Xor (f.get q = true) (q ∈ ps) := by
  rw [get_flipAll, hps.count]
  by_cases h : q ∈ ps <;> simp [h, Xor]

section Small

variable (hx : x + 8 ≤ Whole.exactLimit) (hy : y + 32 ≤ Whole.exactLimit) (hr : rows.length ≤ 32)

include hx hy hr

theorem spritePlaces_eq :
    spritePlaces x y rows = (spriteBits rows).map fun b ↦ place (x + b.2) (y + b.1) := by
  rw [spritePlaces_eq_map]
  refine List.map_congr_left ?_
  rintro ⟨r, c⟩ hb
  obtain ⟨row, hrow, hc, -⟩ := mem_spriteBits.mp hb
  have hlen := (List.getElem?_eq_some_iff.mp hrow).1
  rw [Whole.sum_of_le (by omega), Whole.sum_of_le (by omega)]

theorem nodup_spritePlaces : (spritePlaces x y rows).Nodup := by
  rw [spritePlaces_eq hx hy hr]
  refine List.Nodup.map_on ?_ (nodup_spriteBits rows)
  rintro ⟨r, c⟩ hb ⟨r', c'⟩ hb' he
  obtain ⟨row, hrow, hc, -⟩ := mem_spriteBits.mp hb
  obtain ⟨row', hrow', hc', -⟩ := mem_spriteBits.mp hb'
  have hlen := (List.getElem?_eq_some_iff.mp hrow).1
  have hlen' := (List.getElem?_eq_some_iff.mp hrow').1
  have he := place_eq_iff.mp he
  rw [Prod.mk.injEq]
  omega

theorem pixel_draw (f : Frame) {px py : Nat} (hpx : px < 64) (hpy : py < 32) :
    (f.draw x y rows).1.pixel px py = true ↔ Xor (f.pixel px py = true)
      (∃ b ∈ spriteBits rows, px = (x + b.2) % 64 ∧ py = (y + b.1) % 32) := by
  have hm : place px py ∈ spritePlaces x y rows ↔
      ∃ b ∈ spriteBits rows, px = (x + b.2) % 64 ∧ py = (y + b.1) % 32 := by
    rw [spritePlaces_eq hx hy hr, List.mem_map]
    refine exists_congr fun b ↦ and_congr_right fun _ ↦ ?_
    rw [place_eq_iff, Nat.mod_eq_of_lt hpx, Nat.mod_eq_of_lt hpy, eq_comm, @eq_comm _ py]
  rw [pixel_eq, pixel_eq, draw, get_flipAll_of_nodup (nodup_spritePlaces hx hy hr), hm]

theorem hit_draw (f : Frame) :
    (f.draw x y rows).2 = true ↔ ∃ px < 64, ∃ py < 32,
      f.pixel px py = true ∧ (f.draw x y rows).1.pixel px py = false := by
  have hps := nodup_spritePlaces hx hy hr
  simp only [pixel_eq, draw, hit_flipAll hps, Bool.eq_false_iff, ne_eq, get_flipAll_of_nodup hps,
    Bool.false_eq_true, false_or]
  constructor
  · rintro ⟨q, hq, hf⟩
    refine ⟨q.val % 64, by omega, q.val / 64, by omega, ?_⟩
    simp only [place_mod_div, hf, hq, xor_self, not_false_eq_true, and_self]
  · rintro ⟨px, -, py, -, hf, hd⟩
    refine ⟨place px py, ?_, hf⟩
    simpa [hf] using hd

theorem lit_draw (f : Frame) :
    (f.draw x y rows).1.lit + 2 * (spriteBits rows).countP (fun b ↦ f.pixel (x + b.2) (y + b.1)) =
      f.lit + (spriteBits rows).length := by
  have h := lit_flipAll (nodup_spritePlaces hx hy hr) f false
  rw [spritePlaces_eq hx hy hr, List.countP_map, List.length_map, ← spritePlaces_eq hx hy hr] at h
  exact h

end Small

end Chip8.Frame
