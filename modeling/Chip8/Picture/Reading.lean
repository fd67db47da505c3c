import Chip8.Picture

namespace Chip8

/-- The pixels of a frame two by two, one above the other: sixteen bands of sixty-four pairs. -/
abbrev PixelPairs := Vector (Vector (Bool × Bool) 64) 16

def Frame.ofPairs (v : PixelPairs) : Frame :=
  ofPixels fun x y ↦
    let (top, bottom) := v[y / 2 % 16][x % 64]
    if y % 2 = 0 then top else bottom

namespace Picture

def pair? : Char → Option (Bool × Bool)
  | '█' => some (true, true)
  | '▀' => some (true, false)
  | '▄' => some (false, true)
  | ' ' => some (false, false)
  | _ => none

theorem pair?_eq_some_iff {c : Char} {p : Bool × Bool} :
    pair? c = some p ↔ c = glyph p.1 p.2 := by
  constructor
  · intro h
    unfold pair? at h
    split at h <;> cases h <;> rfl
  · rintro rfl
    obtain ⟨top, bottom⟩ := p
    cases top <;> cases bottom <;> rfl

section Readers

variable {α β : Type} {n : Nat} {read : α → Option β} {write : β → α} {as : List α}

def readAll? (n : Nat) (read : α → Option β) (as : List α) : Option (Vector β n) :=
  (as.mapM read).bind fun bs ↦ if h : bs.length = n then some ⟨bs.toArray, h⟩ else none

theorem mapM_eq_some_iff (h : ∀ a b, read a = some b ↔ a = write b) {bs : List β} :
    as.mapM read = some bs ↔ as = bs.map write := by
  induction as generalizing bs with
  | nil => simp [eq_comm]
  | cons a as ih =>
    simp only [List.mapM_cons, Option.bind_eq_bind, Option.bind_eq_some_iff, h, ih,
      Option.pure_def, Option.some.injEq]
    constructor
    · rintro ⟨b, rfl, bs, rfl, rfl⟩
      rfl
    · intro hbs
      obtain ⟨b, bs, rfl, rfl, rfl⟩ := List.map_eq_cons_iff.mp hbs.symm
      exact ⟨b, rfl, bs, rfl, rfl⟩

/-- What reads one thing exactly as it is written reads a list of them so. -/
theorem readAll?_eq_some_iff (h : ∀ a b, read a = some b ↔ a = write b) {v : Vector β n} :
    readAll? n read as = some v ↔ as = v.toList.map write := by
  rw [readAll?, Option.bind_eq_some_iff]
  constructor
  · rintro ⟨bs, hbs, hv⟩
    split at hv
    · cases hv
      exact (mapM_eq_some_iff h).mp hbs
    · cases hv
  · intro has
    refine ⟨v.toList, (mapM_eq_some_iff h).mpr has, ?_⟩
    rw [dif_pos v.length_toList]
    rfl

end Readers

def readLine? (l : String) : Option (Vector (Bool × Bool) 64) := readAll? 64 pair? l.toList

def ofLines? (ls : List String) : Option Frame := (readAll? 16 readLine? ls).map Frame.ofPairs

def glyphAt (ls : List String) (x k : Nat) : Option Char := ls[k]?.bind fun l ↦ l.toList[x]?

end Picture

end Chip8
