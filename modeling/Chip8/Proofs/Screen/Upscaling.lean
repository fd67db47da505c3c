import Mathlib.Logic.Relation
import Mathlib.Tactic.Ring
import Chip8.Raster

namespace Chip8

section Loops

open Relation (ReflTransGen)

variable {α : Type} {r : α → α → Prop} {n : Nat} {step : (i : Nat) → i < n → α → α}

theorem fold_runs (h : ∀ i hi a, ReflTransGen r a (step i hi a)) (a : α) :
    ReflTransGen r a (n.fold step a) := by
  induction n with
  | zero => exact .refl
  | succ n ih =>
    rw [Nat.fold_succ]
    exact (ih fun i hi ↦ h i (Nat.lt_succ_of_lt hi)).trans (h n _ _)

/-- A loop comes to each of its turns, and goes on from there. -/
theorem fold_passes {i : Nat} (hi : i < n) (h : ∀ i hi a, ReflTransGen r a (step i hi a)) (a : α) :
    ∃ b, ReflTransGen r a b ∧ ReflTransGen r (step i hi b) (n.fold step a) := by
  induction n with
  | zero => exact absurd hi (Nat.not_lt_zero i)
  | succ n ih =>
    have hn : ∀ i hi a, ReflTransGen r a (step i (Nat.lt_succ_of_lt hi) a) := fun i hi ↦ h i _
    rw [Nat.fold_succ]
    rcases Nat.lt_succ_iff_lt_or_eq.mp hi with hlt | rfl
    · obtain ⟨b, hb, hb'⟩ := ih hlt hn
      exact ⟨b, hb, hb'.trans (h n _ _)⟩
    · exact ⟨_, fold_runs hn a, .refl⟩

end Loops

def Colour.solid (c : Colour) : List UInt8 :=
  [UInt8.ofInt c.red, UInt8.ofInt c.green, UInt8.ofInt c.blue, 255]

namespace Raster

open Relation (ReflTransGen)

variable {data : ByteArray} {n p q k place scale x y : Nat} {b red green blue : UInt8}
  {c on off : Colour} {f : Frame} {S : List UInt8 → Prop}

theorem byte_eq (data : ByteArray) (k : Nat) : byte data k = data.data[k]?.getD 0 :=
  Array.getD_getElem?.symm

@[simp] theorem size_store : (store data place b).size = data.size := by
  unfold store
  split
  · exact Array.size_set ..
  · rfl

theorem byte_store : byte (store data place b) k =
    if k = place ∧ place < data.size then b else byte data k := by
  rw [byte_eq, byte_eq, store]
  split
  · next h =>
    rw [ByteArray.data_set, Array.getElem?_set]
    simp only [h, and_true, eq_comm (a := place)]
    split <;> rfl
  · next h => rw [if_neg fun hk ↦ h hk.2]

@[simp] theorem size_storePixel {o : UInt32} :
    (storePixel data o red green blue).size = data.size := by
  unfold storePixel
  split <;> simp only [size_store]

def pixelAt (data : ByteArray) (p : Nat) : List UInt8 :=
  (List.range 4).map fun k ↦ byte data (4 * p + k)

theorem pixelAt_eq (data : ByteArray) (p : Nat) :
    pixelAt data p =
      [byte data (4 * p), byte data (4 * p + 1), byte data (4 * p + 2), byte data (4 * p + 3)] := rfl

theorem toNat_offset (q : Nat) : (offset q).toNat = 4 * (q % 2 ^ 30) := by
  rw [offset, UInt32.toNat_shiftLeft, UInt32.toNat_ofNat']
  simp only [UInt32.reduceToNat, Nat.shiftLeft_eq, Nat.reduceMod, Nat.reducePow]
  omega

/-- A pixel is stored in the place of the one that has the same offset. -/
theorem pixelAt_storePixel_of_eq (hs : data.size = 4 * n) (hp : p < n) (hp₂₉ : p < 2 ^ 29)
    (h : q % 2 ^ 30 = p) :
    pixelAt (storePixel data (offset q) red green blue) p = [red, green, blue, 255] := by
  have ho := toNat_offset q
  have hneg : offset q < 0x80000000 := by
    rw [UInt32.lt_iff_toNat_lt, ho]
    simp only [UInt32.reduceToNat]
    omega
  rw [storePixel, if_pos hneg, pixelAt_eq, ho, h]
  simp [byte_store, hs]
  omega

theorem pixelAt_storePixel_of_ne (h : p < 2 ^ 29 → q % 2 ^ 30 ≠ p) :
    pixelAt (storePixel data (offset q) red green blue) p = pixelAt data p := by
  have ho := toNat_offset q
  unfold storePixel
  split
  · next hneg =>
    rw [UInt32.lt_iff_toNat_lt, ho] at hneg
    simp only [UInt32.reduceToNat] at hneg
    have hb (k : Nat) (hk : k / 4 = p) :
        byte (store (store (store (store data (offset q).toNat red) ((offset q).toNat + 1) green)
          ((offset q).toNat + 2) blue) ((offset q).toNat + 3) 255) k = byte data k := by
      rw [byte_store, byte_store, byte_store, byte_store, ho]
      rw [if_neg (by omega), if_neg (by omega), if_neg (by omega), if_neg (by omega)]
    rw [pixelAt_eq, pixelAt_eq, hb _ (by omega), hb _ (by omega), hb _ (by omega), hb _ (by omega)]
  · rfl

def shade (f : Frame) (scale : Nat) (on off : Colour) (x y : Nat) : Colour :=
  if f.pixel (x / scale) (y / scale) then on else off

def paint (f : Frame) (scale : Nat) (on off : Colour) (x y : Nat) (data : ByteArray) : ByteArray :=
  let c := shade f scale on off x y
  storePixel data (offset (y * (Frame.width * scale) + x)) (UInt8.ofInt c.red) (UInt8.ofInt c.green)
    (UInt8.ofInt c.blue)

theorem storePixel_eq_paint {dx dy : Nat} (hx : dx < scale) (hy : dy < scale) :
    storePixel data (offset ((y * scale + dy) * (Frame.width * scale) + x * scale + dx))
      (UInt8.ofInt (if f.pixel x y then on else off).red)
      (UInt8.ofInt (if f.pixel x y then on else off).green)
      (UInt8.ofInt (if f.pixel x y then on else off).blue) =
    paint f scale on off (x * scale + dx) (y * scale + dy) data := by
  have hdx : (x * scale + dx) / scale = x := by
    rw [Nat.mul_comm, Nat.mul_add_div (by omega), Nat.div_eq_of_lt hx, Nat.add_zero]
  have hdy : (y * scale + dy) / scale = y := by
    rw [Nat.mul_comm, Nat.mul_add_div (by omega), Nat.div_eq_of_lt hy, Nat.add_zero]
  simp only [paint, shade, hdx, hdy, Nat.add_assoc]

def paintSquare (f : Frame) (scale : Nat) (on off : Colour) (x y : Nat) (data : ByteArray) :
    ByteArray :=
  scale.fold (fun dy _ data ↦
    scale.fold (fun dx _ data ↦ paint f scale on off (x * scale + dx) (y * scale + dy) data) data) data

theorem fillSquare_eq :
    fillSquare scale x y (if f.pixel x y then on else off) data =
      paintSquare f scale on off x y data := by
  have h : (fun dy (_ : dy < scale) data ↦ scale.fold (fun dx _ data ↦
      storePixel data (offset ((y * scale + dy) * (Frame.width * scale) + x * scale + dx))
        (UInt8.ofInt (if f.pixel x y then on else off).red)
        (UInt8.ofInt (if f.pixel x y then on else off).green)
        (UInt8.ofInt (if f.pixel x y then on else off).blue)) data) =
      fun dy _ data ↦ scale.fold (fun dx _ data ↦
        paint f scale on off (x * scale + dx) (y * scale + dy) data) data := by
    funext dy hdy data
    congr 1
    funext dx hdx data
    exact storePixel_eq_paint hdx hdy
  exact congrArg (fun step ↦ scale.fold step data) h

theorem data_eq (f : Frame) (scale : Nat) (on off : Colour) :
    (ofFrame f scale on off).data =
      Nat.fold 32 (fun y _ data ↦
        Nat.fold 64 (fun x _ data ↦ paintSquare f scale on off x y data) data)
        (blank (64 * scale) (32 * scale)) := by
  simp only [ofFrame, fillSquare_eq]
  rfl

theorem mul_add_lt {n k i : Nat} (hk : k < n) (hi : i < scale) : k * scale + i < n * scale :=
  calc k * scale + i < k * scale + scale := Nat.add_lt_add_left hi _
    _ = (k + 1) * scale := (Nat.succ_mul k scale).symm
    _ ≤ n * scale := Nat.mul_le_mul_right scale hk

def Paints (f : Frame) (scale : Nat) (on off : Colour) (data data' : ByteArray) : Prop :=
  ∃ x y, x < 64 * scale ∧ y < 32 * scale ∧ data' = paint f scale on off x y data

abbrev PaintsTo (f : Frame) (scale : Nat) (on off : Colour) : ByteArray → ByteArray → Prop :=
  ReflTransGen (Paints f scale on off)

theorem paint_runs (hx : x < 64 * scale) (hy : y < 32 * scale) (data : ByteArray) :
    PaintsTo f scale on off data (paint f scale on off x y data) :=
  .single ⟨x, y, hx, hy, rfl⟩

theorem paintSquare_runs (hx : x < 64) (hy : y < 32) (data : ByteArray) :
    PaintsTo f scale on off data (paintSquare f scale on off x y data) :=
  fold_runs (fun _ hdy data ↦
    fold_runs (fun _ hdx data ↦ paint_runs (mul_add_lt hx hdx) (mul_add_lt hy hdy) data) data) data

theorem paintRow_runs (f : Frame) (on off : Colour) (hy : y < 32) (data : ByteArray) :
    PaintsTo f scale on off data
      (Nat.fold 64 (fun x _ data ↦ paintSquare f scale on off x y data) data) :=
  fold_runs (fun _ hx data ↦ paintSquare_runs hx hy data) data

theorem data_runs (f : Frame) (scale : Nat) (on off : Colour) :
    PaintsTo f scale on off (blank (64 * scale) (32 * scale)) (ofFrame f scale on off).data := by
  rw [data_eq]
  exact fold_runs (fun _ hy data ↦ paintRow_runs f on off hy data) _

theorem paintSquare_passes (f : Frame) (on off : Colour) {dx dy : Nat} (hx : x < 64) (hy : y < 32)
    (hdx : dx < scale) (hdy : dy < scale) (data : ByteArray) :
    ∃ d, PaintsTo f scale on off data d ∧
      PaintsTo f scale on off (paint f scale on off (x * scale + dx) (y * scale + dy) d)
        (paintSquare f scale on off x y data) := by
  obtain ⟨d₁, h₁, h₁'⟩ := fold_passes hdy (fun _ hdy data ↦
    fold_runs (fun _ hdx data ↦ paint_runs (mul_add_lt hx hdx) (mul_add_lt hy hdy) data) data) data
  obtain ⟨d₂, h₂, h₂'⟩ := fold_passes hdx
    (fun _ hdx data ↦ paint_runs (mul_add_lt hx hdx) (mul_add_lt hy hdy) data) d₁
  exact ⟨d₂, h₁.trans h₂, h₂'.trans h₁'⟩

/-- Every pixel of the image is in one of the squares, and so it is painted. -/
theorem data_passes (f : Frame) (on off : Colour) (hx : x < 64 * scale) (hy : y < 32 * scale) :
    ∃ d, PaintsTo f scale on off (blank (64 * scale) (32 * scale)) d ∧
      PaintsTo f scale on off (paint f scale on off x y d) (ofFrame f scale on off).data := by
  have hs : 0 < scale := Nat.pos_of_mul_pos_left (Nat.zero_lt_of_lt hx)
  have hx' : x / scale < 64 := Nat.div_lt_of_lt_mul (Nat.mul_comm 64 scale ▸ hx)
  have hy' : y / scale < 32 := Nat.div_lt_of_lt_mul (Nat.mul_comm 32 scale ▸ hy)
  obtain ⟨d₁, h₁, h₁'⟩ := fold_passes hy' (fun _ hy data ↦ paintRow_runs f on off hy data)
    (blank (64 * scale) (32 * scale))
  obtain ⟨d₂, h₂, h₂'⟩ := fold_passes hx' (fun _ hx data ↦ paintSquare_runs hx hy' data) d₁
  obtain ⟨d₃, h₃, h₃'⟩ := paintSquare_passes f on off hx' hy' (Nat.mod_lt x hs)
    (Nat.mod_lt y hs) d₂
  rw [Nat.div_add_mod', Nat.div_add_mod'] at h₃'
  rw [data_eq]
  exact ⟨d₃, (h₁.trans h₂).trans h₃, (h₃'.trans h₂').trans h₁'⟩

theorem PaintsTo.keeps {P : ByteArray → Prop} {data data' : ByteArray}
    (hr : PaintsTo f scale on off data data')
    (h : ∀ x y data, x < 64 * scale → y < 32 * scale → P data → P (paint f scale on off x y data))
    (hd : P data) : P data' := by
  induction hr with
  | refl => exact hd
  | tail _ hp ih =>
    obtain ⟨x, y, hx, hy, rfl⟩ := hp
    exact h x y _ hx hy ih

theorem size_paint : (paint f scale on off x y data).size = data.size := size_storePixel

theorem PaintsTo.size_eq {data data' : ByteArray} (hr : PaintsTo f scale on off data data') :
    data'.size = data.size :=
  hr.keeps (P := fun d ↦ d.size = data.size) (fun _ _ _ _ _ h ↦ size_paint.trans h) rfl

structure Zeros (n : Nat) (data : ByteArray) : Prop where
  size_eq : data.size = n
  byte_eq_zero : ∀ k, byte data k = 0

theorem Zeros.push (h : Zeros n data) : Zeros (n + 1) (data.push 0) where
  size_eq := by rw [ByteArray.size_push, h.size_eq]
  byte_eq_zero k := by
    have hk := h.byte_eq_zero k
    rw [byte_eq] at hk ⊢
    rw [ByteArray.data_push, Array.getElem?_push]
    split
    · rfl
    · exact hk

theorem Zeros.append {m : Nat} {data' : ByteArray} (h : Zeros n data) (h' : Zeros m data') :
    Zeros (n + m) (data ++ data') where
  size_eq := by rw [ByteArray.size_append, h.size_eq, h'.size_eq]
  byte_eq_zero k := by
    rw [byte_eq, ByteArray.data_append, Array.getElem?_append]
    split
    · exact (byte_eq data k).symm.trans (h.byte_eq_zero k)
    · exact (byte_eq data' _).symm.trans (h'.byte_eq_zero _)

theorem zeros_blank (width height : Nat) : Zeros (height * (4 * width)) (blank width height) := by
  have hempty (n : Nat) : Zeros 0 (ByteArray.emptyWithCapacity n) := ⟨rfl, fun k ↦ rfl⟩
  have hrow (n : Nat) : Zeros n (Nat.repeat (·.push 0) n ByteArray.empty) := by
    induction n with
    | zero => exact hempty 0
    | succ n ih => exact ih.push
  unfold blank
  dsimp only
  generalize 4 * width * height = capacity
  induction height with
  | zero =>
    rw [Nat.zero_mul]
    exact hempty capacity
  | succ n ih =>
    rw [Nat.succ_mul]
    exact ih.append (hrow _)

theorem pixels_eq (scale : Nat) : 32 * scale * (64 * scale) = 2048 * scale ^ 2 := by ring

theorem size_blank : (blank (64 * scale) (32 * scale)).size = 4 * (2048 * scale ^ 2) := by
  rw [(zeros_blank _ _).size_eq, ← pixels_eq]
  ring

theorem index_lt (hx : x < 64 * scale) (hy : y < 32 * scale) :
    y * (64 * scale) + x < 2048 * scale ^ 2 := by
  rw [← pixels_eq]
  exact mul_add_lt hy hx

theorem pixelAt_paint_of_eq (hs : data.size = 4 * n) (hp : p < n) (hp₂₉ : p < 2 ^ 29)
    (h : (y * (64 * scale) + x) % 2 ^ 30 = p) :
    pixelAt (paint f scale on off x y data) p = (shade f scale on off x y).solid :=
  pixelAt_storePixel_of_eq hs hp hp₂₉ h

theorem pixelAt_paint_of_ne (h : p < 2 ^ 29 → (y * (64 * scale) + x) % 2 ^ 30 ≠ p) :
    pixelAt (paint f scale on off x y data) p = pixelAt data p :=
  pixelAt_storePixel_of_ne h

/-- What the bytes of a pixel are in the end, if all that is stored in its place is so, and if the
bytes of a pixel in whose place nothing is stored are so. -/
theorem pixelAt_data (f : Frame) (on off : Colour) (hx : x < 64 * scale) (hy : y < 32 * scale)
    (hp : y * (64 * scale) + x = p)
    (h : ∀ i j, i < 64 * scale → j < 32 * scale → p < 2 ^ 29 →
      (j * (64 * scale) + i) % 2 ^ 30 = p → S (shade f scale on off i j).solid)
    (h₀ : 2 ^ 29 ≤ p → S [0, 0, 0, 0]) : S (pixelAt (ofFrame f scale on off).data p) := by
  have hlt : p < 2048 * scale ^ 2 := hp ▸ index_lt hx hy
  have hkeep (i j : Nat) (data : ByteArray) (hi : i < 64 * scale) (hj : j < 32 * scale)
      (hd : data.size = 4 * (2048 * scale ^ 2) ∧ S (pixelAt data p)) :
      (paint f scale on off i j data).size = 4 * (2048 * scale ^ 2) ∧
        S (pixelAt (paint f scale on off i j data) p) := by
    refine ⟨size_paint.trans hd.1, ?_⟩
    by_cases hs : p < 2 ^ 29 ∧ (j * (64 * scale) + i) % 2 ^ 30 = p
    · rw [pixelAt_paint_of_eq hd.1 hlt hs.1 hs.2]
      exact h i j hi hj hs.1 hs.2
    · rw [pixelAt_paint_of_ne fun h₂₉ he ↦ hs ⟨h₂₉, he⟩]
      exact hd.2
  rcases Nat.lt_or_ge p (2 ^ 29) with h₂₉ | h₂₉
  · obtain ⟨d, hd, hd'⟩ := data_passes f on off hx hy
    have hs : d.size = 4 * (2048 * scale ^ 2) := hd.size_eq.trans size_blank
    have hmod : (y * (64 * scale) + x) % 2 ^ 30 = p := by rw [hp]; exact Nat.mod_eq_of_lt (by omega)
    refine (hd'.keeps hkeep ⟨size_paint.trans hs, ?_⟩).2
    rw [pixelAt_paint_of_eq hs hlt h₂₉ hmod]
    exact h x y hx hy h₂₉ hmod
  · have hzero : pixelAt (blank (64 * scale) (32 * scale)) p = [0, 0, 0, 0] := by
      simp only [pixelAt_eq, (zeros_blank _ _).byte_eq_zero]
    exact ((data_runs f scale on off).keeps hkeep ⟨size_blank, hzero ▸ h₀ h₂₉⟩).2

theorem squareSide_natCast (h : 0 < scale) : squareSide scale = scale := by
  have hf : ((scale : Nat) : Rat).floor = scale := Rat.floor_intCast scale
  rw [squareSide, hf, Int.toNat_natCast]
  exact Nat.max_eq_right h

theorem index_inj {i j : Nat} (hx : x < n) (hi : i < n) (h : j * n + i = y * n + x) : i = x ∧ j = y := by
  have hmod := congrArg (· % n) h
  simp only [Nat.mul_add_mod', Nat.mod_eq_of_lt hx, Nat.mod_eq_of_lt hi] at hmod
  subst hmod
  exact ⟨rfl, Nat.eq_of_mul_eq_mul_right (Nat.zero_lt_of_lt hx) (Nat.add_right_cancel h)⟩

section Pixels

variable (f : Frame) (on off : Colour) (hx : x < 64 * scale) (hy : y < 32 * scale)
include hx hy

/-- A pixel with an offset of its own, which is not negative, has its colour. -/
theorem pixel_of_alone (hp : y * (64 * scale) + x < 2 ^ 29)
    (ha : 2048 * scale ^ 2 ≤ y * (64 * scale) + x + 2 ^ 30) :
    (ofFrame f scale on off).pixel x y = (shade f scale on off x y).solid := by
  refine pixelAt_data (S := (· = (shade f scale on off x y).solid)) f on off hx hy rfl ?_ ?_
  · intro i j hi hj _ (hmod : _ = y * (64 * scale) + x)
    have hlt := index_lt hi hj
    have he : j * (64 * scale) + i = y * (64 * scale) + x := by omega
    obtain ⟨rfl, rfl⟩ := index_inj hx hi he
    rfl
  · intro h
    exact absurd hp (Nat.not_lt.mpr h)

theorem pixel_of_nonneg (hp : y * (64 * scale) + x < 2 ^ 29) :
    (ofFrame f scale on off).pixel x y = on.solid ∨
      (ofFrame f scale on off).pixel x y = off.solid := by
  refine pixelAt_data (S := fun b ↦ b = on.solid ∨ b = off.solid) f on off hx hy rfl ?_ ?_
  · intro i j _ _ _ _
    unfold shade
    split
    · exact .inl rfl
    · exact .inr rfl
  · intro h
    exact absurd hp (Nat.not_lt.mpr h)

/-- A pixel with a negative offset is not written. -/
theorem pixel_of_negative (hp : 2 ^ 29 ≤ y * (64 * scale) + x) :
    (ofFrame f scale on off).pixel x y = [0, 0, 0, 0] := by
  refine pixelAt_data (S := (· = [0, 0, 0, 0])) f on off hx hy rfl ?_ fun _ ↦ rfl
  intro i j _ _ h
  exact absurd h (Nat.not_lt.mpr hp)

end Pixels

/-- The image has a square for each pixel of the frame. Up to a scale of 512 every pixel of it has
the colour of its square. Beyond that the pixels from number `2 ^ 29` on are not written; those
before have one of the two colours, and their own as long as no other pixel has the same offset. -/
theorem image_right_while_offsets_fit (f : Frame) (on off : Colour) {scale : Nat} (hs : 0 < scale) :
    let r := ofFrame f (squareSide scale) on off
    r.width = 64 * scale ∧ r.height = 32 * scale ∧ r.data.size = 4 * (r.width * r.height) ∧
      ∀ x y, x < r.width → y < r.height →
        let p := y * r.width + x
        let c := if f.pixel (x / scale) (y / scale) then on else off
        (scale ≤ 512 → r.pixel x y = c.solid) ∧
          (p < 2 ^ 29 → r.pixel x y = on.solid ∨ r.pixel x y = off.solid) ∧
          (p < 2 ^ 29 → r.width * r.height ≤ p + 2 ^ 30 → r.pixel x y = c.solid) ∧
          (2 ^ 29 ≤ p → r.pixel x y = [0, 0, 0, 0]) := by
  rw [squareSide_natCast hs]
  have hsize : (ofFrame f scale on off).data.size = 4 * (2048 * scale ^ 2) :=
    (data_runs f scale on off).size_eq.trans size_blank
  have hpixels : 64 * scale * (32 * scale) = 2048 * scale ^ 2 := by ring
  refine ⟨rfl, rfl, hsize.trans (congrArg (4 * ·) hpixels.symm), fun x y hx hy ↦ ⟨?_, ?_, ?_, ?_⟩⟩
  · intro hs
    have hlt : y * (64 * scale) + x < 2048 * scale ^ 2 := index_lt hx hy
    have hle : scale ^ 2 ≤ 512 ^ 2 := Nat.pow_le_pow_left hs 2
    exact pixel_of_alone f on off hx hy (by omega) (by omega)
  · exact pixel_of_nonneg f on off hx hy
  · intro hp ha
    exact pixel_of_alone f on off hx hy hp (hpixels ▸ ha)
  · exact pixel_of_negative f on off hx hy

/-- The last pixel at the largest scale with offsets that fit. -/
theorem last_pixel_lit_at_512 :
    let f := Frame.ofPixels fun x y ↦ x == 63 && y == 31
    0 < 512 ∧ (ofFrame f (squareSide (512 : Nat)) .white .black).pixel 32767 16383 =
      [255, 255, 255, 255] := by
  intro f
  have hf : f.pixel (32767 / 512) (16383 / 512) = true := Frame.pixel_ofPixels ..
  have hs : 0 < 512 := by decide
  have h := ((image_right_while_offsets_fit f .white .black hs).2.2.2
    32767 16383 (by decide) (by decide)).1 (by decide)
  rw [hf] at h
  exact ⟨hs, h⟩

/-- At the next scale the last pixel is neither lit nor unlit. -/
theorem last_pixel_missing_at_513 :
    let f := Frame.ofPixels fun x y ↦ x == 63 && y == 31
    let r := ofFrame f (squareSide (513 : Nat)) .white .black
    32831 < r.width ∧ 16415 < r.height ∧ f.pixel (32831 / 513) (16415 / 513) = true ∧
      r.pixel 32831 16415 = [0, 0, 0, 0] ∧ Colour.white.solid = [255, 255, 255, 255] := by
  intro f r
  have hr : r = ofFrame f 513 .white .black :=
    congrArg (ofFrame f · .white .black) (squareSide_natCast (by decide))
  have hf : f.pixel (32831 / 513) (16415 / 513) = true := Frame.pixel_ofPixels ..
  rw [hr]
  exact ⟨by decide, by decide, hf,
    pixel_of_negative f .white .black (by decide) (by decide) (by decide), rfl⟩

end Raster

end Chip8
