import Chip8.Picture.Reading
import Chip8.Proofs.Screen.Flips

namespace Chip8

namespace Frame

variable {f g : Frame} {x y k : Nat}

theorem pixel_eq_getElem (f : Frame) (hx : x < 64) (hy : y < 32) :
    f.pixel x y = f[y * 64 + x] := by
  simp only [pixel, place, Fin.getElem_fin, Nat.mod_eq_of_lt hx, Nat.mod_eq_of_lt hy]

theorem ext_pixel (h : ∀ x < 64, ∀ y < 32, f.pixel x y = g.pixel x y) : f = g := by
  refine Vector.ext fun p hp ↦ ?_
  have hpixel := h (p % 64) (by omega) (p / 64) (by omega)
  rwa [pixel_eq, pixel_eq, place_mod_div ⟨p, hp⟩] at hpixel

def pairs (f : Frame) : PixelPairs :=
  Vector.ofFn fun k ↦ Vector.ofFn fun x ↦ (f.pixel x (2 * k), f.pixel x (2 * k + 1))

theorem getElem_pairs (f : Frame) (hk : k < 16) (hx : x < 64) :
    f.pairs[k][x] = (f.pixel x (2 * k), f.pixel x (2 * k + 1)) := by
  simp only [pairs, Vector.getElem_ofFn]

theorem pixel_ofPairs (v : PixelPairs) (hk : k < 16) (hx : x < 64) :
    (ofPairs v).pixel x (2 * k) = v[k][x].1 ∧ (ofPairs v).pixel x (2 * k + 1) = v[k][x].2 := by
  have upper : 2 * k % 32 / 2 % 16 = k ∧ 2 * k % 32 % 2 = 0 := by omega
  have lower : (2 * k + 1) % 32 / 2 % 16 = k ∧ (2 * k + 1) % 32 % 2 = 1 := by omega
  constructor
  · simp only [ofPairs, pixel_ofPixels, upper, Nat.mod_eq_of_lt hx, if_true]
  · simp only [ofPairs, pixel_ofPixels, lower, Nat.mod_eq_of_lt hx, Nat.one_ne_zero, if_false]

theorem pairs_ofPairs (v : PixelPairs) : (ofPairs v).pairs = v := by
  refine Vector.ext fun k hk ↦ Vector.ext fun x hx ↦ ?_
  obtain ⟨hupper, hlower⟩ := pixel_ofPairs v hk hx
  rw [getElem_pairs _ hk hx, hupper, hlower]

theorem ofPairs_pairs (f : Frame) : ofPairs f.pairs = f := by
  refine ext_pixel fun x hx y hy ↦ ?_
  -- Row `y` is the upper or the lower row of band `y / 2`.
  have hk : y / 2 < 16 := by omega
  obtain ⟨hupper, hlower⟩ := pixel_ofPairs f.pairs hk hx
  rw [getElem_pairs f hk hx] at hupper hlower
  rcases Nat.mod_two_eq_zero_or_one y with h | h
  · rw [show 2 * (y / 2) = y by omega] at hupper
    exact hupper
  · rw [show 2 * (y / 2) + 1 = y by omega] at hlower
    exact hlower

theorem ofPairs_eq_iff {v : PixelPairs} : ofPairs v = f ↔ v = f.pairs := by
  constructor
  · rintro rfl
    exact (pairs_ofPairs v).symm
  · rintro rfl
    exact ofPairs_pairs f

end Frame

namespace Picture

variable {f g : Frame} {x y k : Nat} {ls : List String}

def lineOf (v : Vector (Bool × Bool) 64) : String :=
  String.ofList (v.toList.map fun p ↦ glyph p.1 p.2)

theorem line_eq (f : Frame) (hk : k < 16) : line f k = lineOf f.pairs[k] := by
  refine congrArg String.ofList (List.ext_getElem (by simp [Frame.width]) fun x hx _ ↦ ?_)
  rw [List.length_map, List.length_range, Frame.width] at hx
  simp only [List.getElem_map, List.getElem_range, Vector.getElem_toList, f.getElem_pairs hk hx]

theorem lines_eq (f : Frame) : lines f = f.pairs.toList.map lineOf := by
  refine List.ext_getElem (by simp [lines, Frame.height]) fun k hk _ ↦ ?_
  rw [lines, List.length_map, List.length_range, Frame.height] at hk
  simp only [lines, List.getElem_map, List.getElem_range, Vector.getElem_toList, line_eq f hk]

theorem readLine?_eq_some_iff (l : String) (v : Vector (Bool × Bool) 64) :
    readLine? l = some v ↔ l = lineOf v := by
  have h : readAll? 64 pair? l.toList = some v ↔ l.toList = v.toList.map fun p ↦ glyph p.1 p.2 :=
    readAll?_eq_some_iff fun _ _ ↦ pair?_eq_some_iff
  rw [readLine?, h, ← String.toList_inj, lineOf, String.toList_ofList]

theorem ofLines?_eq_some_iff : ofLines? ls = some f ↔ ls = lines f := by
  simp only [ofLines?, Option.map_eq_some_iff, readAll?_eq_some_iff readLine?_eq_some_iff,
    Frame.ofPairs_eq_iff, exists_eq_right, lines_eq]

theorem eq_of_lines_eq (h : lines g = lines f) : g = f := by
  have hg := ofLines?_eq_some_iff.mpr h.symm
  have hf := ofLines?_eq_some_iff.mpr (Eq.refl (lines f))
  exact Option.some.inj (hg.symm.trans hf)

theorem length_line (f : Frame) (k : Nat) : (line f k).length = 64 := by
  rw [line, String.length_ofList, List.length_map, List.length_range, Frame.width]

theorem glyphAt_lines (f : Frame) (hx : x < 64) (hk : k < 16) :
    glyphAt (lines f) x k = some (glyph (f.pixel x (2 * k)) (f.pixel x (2 * k + 1))) := by
  simp [glyphAt, lines, line, Frame.width, Frame.height, hx, hk]

theorem line_blank (k : Nat) : line Frame.blank k = String.ofList (List.replicate 64 ' ') := by
  have hpixel (x y : Nat) : Frame.blank.pixel x y = false := by
    simp [Frame.pixel, Frame.blank]
  simp only [line, hpixel, glyph, List.map_const', List.length_range, Frame.width]

theorem lines_blank :
    lines Frame.blank = List.replicate 16 (String.ofList (List.replicate 64 ' ')) := by
  simp only [lines, funext line_blank, List.map_const', List.length_range, Frame.height,
    Nat.reduceDiv]

theorem upper_lit_iff (top bottom : Bool) :
    top = true ↔ glyph top bottom = '█' ∨ glyph top bottom = '▀' := by
  cases top <;> cases bottom <;> decide

theorem lower_lit_iff (top bottom : Bool) :
    bottom = true ↔ glyph top bottom = '█' ∨ glyph top bottom = '▄' := by
  cases top <;> cases bottom <;> decide

theorem exists_glyph (f : Frame) (hx : x < 64) (hy : y < 32) :
    ∃ c, glyphAt (lines f) x (y / 2) = some c ∧
      (f.pixel x y = true ↔ c = '█' ∨ c = if y % 2 = 0 then '▀' else '▄') := by
  refine ⟨_, glyphAt_lines f hx (by omega), ?_⟩
  rcases Nat.mod_two_eq_zero_or_one y with h | h
  · have hy : 2 * (y / 2) = y := by omega
    rw [if_pos h, hy]
    exact upper_lit_iff ..
  · have hy : 2 * (y / 2) + 1 = y := by omega
    rw [if_neg (by omega), hy]
    exact lower_lit_iff ..

/-- A frame has sixteen lines of sixty-four glyphs. The glyph in column `x` of line `y / 2` tells
whether the pixel at `(x, y)` is lit, in its upper half for an even row and in its lower half for an
odd one. The lines are read back to the frame and no other lines are, so that two frames have
different lines. -/
theorem lines_show_frame (f : Frame) :
    (lines f).length = 16 ∧ (∀ l ∈ lines f, l.length = 64) ∧
      (∀ (x : Fin 64) (y : Fin 32), ∃ c, glyphAt (lines f) x (y.val / 2) = some c ∧
        (f[y.val * 64 + x.val] = true ↔ c = '█' ∨ c = if y.val % 2 = 0 then '▀' else '▄')) ∧
      (∀ ls, ofLines? ls = some f ↔ ls = lines f) ∧ ∀ g, lines g = lines f → g = f := by
  refine ⟨?_, ?_, fun x y ↦ ?_, fun _ ↦ ofLines?_eq_some_iff, fun _ ↦ eq_of_lines_eq⟩
  · rw [lines, List.length_map, List.length_range, Frame.height]
  · intro l hl
    obtain ⟨k, -, rfl⟩ := List.mem_map.mp hl
    exact length_line f k
  · rw [← f.pixel_eq_getElem x.isLt y.isLt]
    exact exists_glyph f x.isLt y.isLt

/-- A thick diagonal across the last corner shows all three blocks, and its highest pixel is the
lower half of the line before the last. -/
theorem corner_diagonal_shown :
    let f := Frame.ofPixels fun x y ↦ x + y == 92 || x + y == 93
    let last := String.ofList (List.replicate 61 ' ' ++ ['▄', '█', '▀'])
    last ∈ lines f ∧ last.length = 64 ∧ glyphAt (lines f) 63 14 = some '▄' ∧
      f[29 * 64 + 63] = true ∧ ofLines? (lines f) = some f ∧ lines Frame.blank ≠ lines f := by
  intro f last
  obtain ⟨-, hlength, hglyph, hread, hinj⟩ := lines_show_frame f
  have hline : line f 15 = last := by
    refine congrArg String.ofList ?_
    -- A pixel is computed from its coordinates and not looked up among all pixels.
    simp only [f, Frame.pixel_ofPixels]
    decide +kernel
  have hlast : last ∈ lines f := List.mem_map.mpr ⟨15, by decide, hline⟩
  have hc : glyphAt (lines f) 63 14 = some '▄' := by
    rw [glyphAt_lines f (by decide) (by decide)]
    simp only [f, Frame.pixel_ofPixels]
    decide
  obtain ⟨c, hc', hlit⟩ := hglyph 63 29
  have he : c = '▄' := Option.some.inj (hc'.symm.trans hc)
  have hp : f[29 * 64 + 63] = true := hlit.mpr (.inr he)
  have hne : Frame.blank ≠ f := by
    intro h
    rw [← h] at hp
    exact absurd hp (by decide +kernel)
  exact ⟨hlast, hlength last hlast, hc, hp, (hread _).mpr rfl, fun h ↦ hne (hinj _ h)⟩

end Picture

end Chip8
