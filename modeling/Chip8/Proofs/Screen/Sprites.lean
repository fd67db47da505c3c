import Mathlib.Data.List.Forall2
import Chip8.Proofs.Screen.Flips

namespace Chip8

namespace Whole

variable {a b k n len : Nat}

theorem even_of_round_eq (h : round n = n) (hn : exactLimit < n) : n % 2 = 0 := by
  obtain ⟨m, k, hm, hr⟩ := fits_round n
  rw [h] at hr
  cases k with
  | zero =>
    have hm' : n = m := hr.trans (Nat.mul_one m)
    omega
  | succ k =>
    have hk : m * Nat.pow 2 (k + 1) = m * Nat.pow 2 k * 2 := (Nat.mul_assoc m (2 ^ k) 2).symm
    omega

theorem sum_succ_le (h : sum a k = a + k) (h' : sum a (k + 1) = a + (k + 1)) :
    a + (k + 1) ≤ exactLimit := by
  have hl : exactLimit % 2 = 0 := rfl
  by_contra hn
  have hs := even_of_round_eq h' (by omega)
  have hlt : exactLimit < a + k := by omega
  have := even_of_round_eq h hlt
  omega

theorem sum_mod (hn : 0 < n) (hl : n ≤ exactLimit)
    (h : b = a ∨ b = a % n ∧ ∀ j < len, sum a j = a + j) (hk : k < len) :
    sum b k % n = sum a k % n := by
  rcases h with rfl | ⟨rfl, h⟩
  · rfl
  · have hmod := Nat.mod_lt a hn
    have hle := Nat.mod_le a n
    have hs : sum (a % n) k = a % n + k := by
      cases k with
      | zero => exact sum_of_le (by omega)
      | succ k =>
        have := sum_succ_le (h k (by omega)) (h (k + 1) hk)
        exact sum_of_le (by omega)
    rw [hs, h k hk, Nat.mod_add_mod]

end Whole

structure Sprite where
  x : Nat
  y : Nat
  rows : List Int

def Screen.drawAll (s : Screen) : List Sprite → Screen × List Bool
  | [] => (s, [])
  | p :: ps =>
    let (s, hit) := s.drawNumbers p.x p.y p.rows
    let (s, hits) := s.drawAll ps
    (s, hit :: hits)

namespace Sprite

variable {p q : Sprite} {ps qs : List Sprite} {ns ks : List Int}

def places (p : Sprite) : List (Fin 2048) :=
  Frame.spritePlaces p.x p.y (p.rows.map UInt8.ofInt)

/-- The second sprite is the first with some of its numbers reduced to what counts of them. The sums
of a coordinate that is reduced are exact. -/
structure Reduces (p q : Sprite) : Prop where
  x_eq : q.x = p.x ∨ q.x = p.x % 64 ∧ ∀ c < 8, Whole.sum p.x c = p.x + c
  y_eq : q.y = p.y ∨ q.y = p.y % 32 ∧ ∀ r < p.rows.length, Whole.sum p.y r = p.y + r
  rows_eq : List.Forall₂ (fun n k ↦ k = n ∨ k = n % 0x100) p.rows q.rows

theorem drawNumbers_eq (s : Screen) (p : Sprite) :
    s.drawNumbers p.x p.y p.rows =
      (⟨(Frame.flipAll s.frame false p.places).1, s.revision + 1⟩,
        (Frame.flipAll s.frame false p.places).2) := rfl

theorem ofInt_mod (n : Int) : UInt8.ofInt (n % 0x100) = UInt8.ofInt n := by
  simp [UInt8.ofInt]

theorem map_ofInt (h : List.Forall₂ (fun n k ↦ k = n ∨ k = n % 0x100) ns ks) :
    ks.map UInt8.ofInt = ns.map UInt8.ofInt := by
  induction h with
  | nil => rfl
  | cons hk _ ih =>
    rw [List.map_cons, List.map_cons, ih]
    rcases hk with rfl | rfl
    · rfl
    · rw [ofInt_mod]

theorem Reduces.places_eq (h : p.Reduces q) : q.places = p.places := by
  rw [places, places, map_ofInt h.rows_eq, Frame.spritePlaces_eq_map, Frame.spritePlaces_eq_map]
  refine List.map_congr_left ?_
  rintro ⟨r, c⟩ hb
  obtain ⟨row, hr, hc, -⟩ := Frame.mem_spriteBits.mp hb
  have hlen : r < p.rows.length := by
    have := (List.getElem?_eq_some_iff.mp hr).1
    rwa [List.length_map] at this
  have hx : Whole.sum q.x c % 64 = Whole.sum p.x c % 64 :=
    Whole.sum_mod (by decide) (by decide) h.x_eq hc
  have hy : Whole.sum q.y r % 32 = Whole.sum p.y r % 32 :=
    Whole.sum_mod (by decide) (by decide) h.y_eq hlen
  simp only [Frame.place, hx, hy]

theorem frame_drawAll (s : Screen) (ps : List Sprite) (i : Fin 2048) :
    (s.drawAll ps).1.frame.get i = (s.frame.get i ^^ ((ps.flatMap places).count i).bodd) := by
  induction ps generalizing s with
  | nil => simp [Screen.drawAll]
  | cons p ps ih =>
    simp only [Screen.drawAll, drawNumbers_eq, ih, Frame.get_flipAll, List.flatMap_cons,
      List.count_append, Nat.bodd_add, Bool.xor_assoc]

theorem revision_drawAll (s : Screen) (ps : List Sprite) :
    (s.drawAll ps).1.revision = s.revision + ps.length := by
  induction ps generalizing s with
  | nil => rfl
  | cons p ps ih =>
    simp only [Screen.drawAll, drawNumbers_eq, ih, List.length_cons]
    omega

theorem drawAll_perm (s : Screen) (h : ps.Perm qs) : (s.drawAll qs).1 = (s.drawAll ps).1 := by
  have hf : (s.drawAll qs).1.frame = (s.drawAll ps).1.frame := by
    refine Vector.ext fun i hi ↦ ?_
    have hq := frame_drawAll s qs ⟨i, hi⟩
    rw [← (h.flatMap_right places).count_eq, ← frame_drawAll] at hq
    exact hq
  have hr : (s.drawAll qs).1.revision = (s.drawAll ps).1.revision := by
    rw [revision_drawAll, revision_drawAll, h.length_eq]
  exact congrArg₂ Screen.mk hf hr

theorem drawAll_twice (s : Screen) (ps : List Sprite) :
    (s.drawAll (ps ++ ps)).1.frame = s.frame := by
  refine Vector.ext fun i hi ↦ ?_
  have h := frame_drawAll s (ps ++ ps) ⟨i, hi⟩
  rw [List.flatMap_append, List.count_append, Nat.bodd_add, Bool.xor_self, Bool.xor_false] at h
  exact h

theorem drawAll_reduced (s : Screen) (h : List.Forall₂ Reduces ps qs) :
    s.drawAll qs = s.drawAll ps := by
  induction h generalizing s with
  | nil => rfl
  | cons hp _ ih => simp only [Screen.drawAll, drawNumbers_eq, hp.places_eq, ih]

end Sprite

/-- The pixels that a list of sprites leaves do not depend on its order, and drawing it twice gives
back the pixels that were there. Sprites whose coordinates and rows are reduced to what counts of
them leave the same pixels and have the same collisions, where the sums of the coordinates are
exact. -/
theorem Screen.sprites_act_by_xor (s : Screen) (ps : List Sprite) :
    (∀ qs, ps.Perm qs → (s.drawAll qs).1 = (s.drawAll ps).1) ∧
      (s.drawAll (ps ++ ps)).1.frame = s.frame ∧
      ∀ qs, List.Forall₂ Sprite.Reduces ps qs → s.drawAll qs = s.drawAll ps :=
  ⟨fun _ ↦ Sprite.drawAll_perm s, Sprite.drawAll_twice s ps, fun _ ↦ Sprite.drawAll_reduced s⟩

/-- Two sprites that wrap around the edges of the screen, the first with the last exact column and a
row that does not fit in a byte. -/
theorem Screen.wrapped_sprites_reduced :
    let s := Screen.initial
    let ps : List Sprite :=
      [⟨Whole.exactLimit - 7, 63, [0x1FF, -1]⟩, ⟨70, Whole.exactLimit, [0x80]⟩]
    let qs : List Sprite := [⟨57, 31, [0xFF, 0xFF]⟩, ⟨6, 0, [0x80]⟩]
    (s.drawAll ps.reverse).1 = (s.drawAll ps).1 ∧ (s.drawAll (ps ++ ps)).1.frame = s.frame ∧
      s.drawAll qs = s.drawAll ps ∧ (s.drawAll ps).2 = [false, false] ∧
        (s.drawAll ps).1.frame.pixel 0 0 = true := by
  intro s ps qs
  obtain ⟨hperm, htwice, hreduced⟩ := s.sprites_act_by_xor ps
  have hfirst : Sprite.Reduces ⟨Whole.exactLimit - 7, 63, [0x1FF, -1]⟩ ⟨57, 31, [0xFF, 0xFF]⟩ :=
    ⟨.inr (by decide +kernel), .inr (by decide +kernel), .cons (.inr rfl) (.cons (.inr rfl) .nil)⟩
  have hsecond : Sprite.Reduces ⟨70, Whole.exactLimit, [0x80]⟩ ⟨6, 0, [0x80]⟩ :=
    ⟨.inr (by decide +kernel), .inr (by decide +kernel), .cons (.inl rfl) .nil⟩
  have hq := hreduced qs (.cons hfirst (.cons hsecond .nil))
  refine ⟨hperm ps.reverse ps.reverse_perm.symm, htwice, hq, ?_, ?_⟩
  · rw [← hq]
    decide +kernel
  · rw [← hq]
    decide +kernel

/-- Beyond the exact limit the eight columns of a sprite are rounded to five even ones, and a place
that comes twice is lit when it is touched again. -/
theorem Screen.columns_coincide_beyond_exact_limit :
    let s := Screen.initial
    let p : Sprite := ⟨Whole.exactLimit, 0, [0xFF]⟩
    let q : Sprite := { p with x := p.x % 64 }
    (s.drawAll [p]).1.frame.pixel 1 0 = false ∧ (s.drawAll [q]).1.frame.pixel 1 0 = true ∧
      (s.drawAll [p]).2 = [true] ∧ (s.drawAll [q]).2 = [false] := by
  intro s p q
  refine ⟨?_, ?_, ?_, ?_⟩ <;> decide +kernel

end Chip8
