import Mathlib.Logic.Relation
import Chip8.Dialect.Behaviour
import Chip8.Dialect.Names

namespace Chip8

namespace Text

variable {bs : List Char}

theorem trimStart_append (h : ∀ c ∈ bs, isBlank c = true) (cs : List Char) :
    trimStart (bs ++ cs) = trimStart cs := List.dropWhile_append_of_pos h

theorem trimEnd_append (h : ∀ c ∈ bs, isBlank c = true) (cs : List Char) :
    trimEnd (cs ++ bs) = trimEnd cs := by
  have hr : ∀ c ∈ bs.reverse, isBlank c = true := fun c hc ↦ h c (List.mem_reverse.mp hc)
  rw [trimEnd, List.reverse_append, List.dropWhile_append_of_pos hr, trimEnd]

theorem trimEnd_trimStart_append (h : ∀ c ∈ bs, isBlank c = true) (cs : List Char) :
    trimEnd (trimStart (cs ++ bs)) = trimEnd (trimStart cs) := by
  rw [trimStart, List.dropWhile_append]
  split
  · next he =>
    have hb := trimStart_append h []
    rw [List.append_nil] at hb
    rw [trimStart, List.isEmpty_iff.mp he]
    exact congrArg trimEnd hb
  · exact trimEnd_append h _

theorem trim_append_append {a b : String} (ha : ∀ c ∈ a.toList, isBlank c = true)
    (hb : ∀ c ∈ b.toList, isBlank c = true) (s : String) : trim (a ++ s ++ b) = trim s := by
  rw [trim, String.toList_append, String.toList_append, trimEnd_trimStart_append hb,
    trimStart_append ha, trim]

theorem trim_of_blank {b : String} (h : ∀ c ∈ b.toList, isBlank c = true) : trim b = "" := by
  have hb := trimStart_append h []
  rw [List.append_nil] at hb
  rw [trim, hb]
  rfl

end Text

namespace Dialect

variable {s t p : String} {ps qs : List String} {d : Dialect} {e : UnknownName} {n k : Nat}

def nameOf (part : String) : String := Text.lowercase (Text.trim part)

def Unknown (part : String) : Prop :=
  nameOf part ≠ "" ∧ nameOf part ≠ "all" ∧ ∀ q ∈ names, nameOf part ≠ q.1

instance : DecidablePred Unknown := fun part ↦ by
  unfold Unknown
  infer_instance

def flags (name : String) : Nat := if name = "all" then all else (names.lookup name).getD 0

def joined (ps : List String) : Nat := ps.foldr (fun p n ↦ flags (nameOf p) ||| n) 0

theorem lookup_eq_none_iff : names.lookup s = none ↔ ∀ q ∈ names, s ≠ q.1 := by
  rw [List.lookup_eq_none_iff]
  exact forall₂_congr fun q hq ↦ bne_iff_ne

theorem bitsOf_of_unknown (h : Unknown p) : bitsOf p = .error ⟨Text.trim p⟩ := by
  obtain ⟨hne, hall, hnames⟩ := h
  have hempty : (nameOf p).isEmpty = false := Bool.eq_false_iff.mpr (mt String.isEmpty_iff.mp hne)
  have hlookup := lookup_eq_none_iff.mpr hnames
  rw [nameOf] at hall hempty hlookup
  simp only [bitsOf, hempty, hall, hlookup, Bool.false_eq_true, ↓reduceIte]

theorem bitsOf_of_known (h : ¬Unknown p) : bitsOf p = .ok (flags (nameOf p)) := by
  have hname : Text.lowercase (Text.trim p) = nameOf p := rfl
  simp only [bitsOf, hname]
  by_cases hempty : nameOf p = ""
  · rw [hempty]
    rfl
  · have hne : (nameOf p).isEmpty = false := Bool.eq_false_iff.mpr (mt String.isEmpty_iff.mp hempty)
    by_cases hall : nameOf p = "all"
    · rw [hall]
      rfl
    · have hlookup : names.lookup (nameOf p) ≠ none := fun hn ↦
        h ⟨hempty, hall, lookup_eq_none_iff.mp hn⟩
      obtain ⟨flag, hflag⟩ := Option.ne_none_iff_exists'.mp hlookup
      simp only [flags, hne, hall, hflag, Option.getD_some, Bool.false_eq_true, ↓reduceIte]

theorem union_cons_of_unknown (h : Unknown p) (ps : List String) :
    union (p :: ps) = .error ⟨Text.trim p⟩ := by
  rw [union, bitsOf_of_unknown h]
  rfl

theorem union_cons_of_known (h : ¬Unknown p) (ps : List String) :
    union (p :: ps) = (union ps).map (flags (nameOf p) ||| ·) := by
  rw [union, bitsOf_of_known h]
  rfl

theorem union_of_known (h : ∀ p ∈ ps, ¬Unknown p) : union ps = .ok (joined ps) := by
  induction ps with
  | nil => rfl
  | cons p ps ih =>
    have hp := h p List.mem_cons_self
    rw [union_cons_of_known hp, ih fun q hq ↦ h q (List.mem_cons_of_mem p hq)]
    rfl

/-- What follows the first unknown part makes no difference. -/
theorem union_of_first_unknown (h : ∀ q ∈ ps, ¬Unknown q) (hp : Unknown p) (qs : List String) :
    union (ps ++ p :: qs) = .error ⟨Text.trim p⟩ := by
  induction ps with
  | nil => exact union_cons_of_unknown hp qs
  | cons q ps ih =>
    rw [List.cons_append, union_cons_of_known (h q List.mem_cons_self),
      ih fun r hr ↦ h r (List.mem_cons_of_mem q hr)]
    rfl

theorem union_eq_ok_iff : union ps = .ok n ↔ (∀ p ∈ ps, ¬Unknown p) ∧ joined ps = n := by
  constructor
  · intro h
    cases hf : ps.find? (Unknown ·) with
    | none =>
      have hk : ∀ p ∈ ps, ¬Unknown p := by simpa using hf
      rw [union_of_known hk] at h
      exact ⟨hk, Except.ok.inj h⟩
    | some p =>
      obtain ⟨hp, front, back, rfl, hfront⟩ := List.find?_eq_some_iff_append.mp hf
      have hk : ∀ q ∈ front, ¬Unknown q := by simpa using hfront
      rw [union_of_first_unknown hk (of_decide_eq_true hp)] at h
      cases h
  · rintro ⟨hk, rfl⟩
    exact union_of_known hk

theorem ofNames_eq_ok_iff :
    ofNames s = .ok d ↔ (∀ p ∈ parts s, ¬Unknown p) ∧ joined (parts s) = d.bits := by
  rw [← union_eq_ok_iff, ofNames]
  cases union (parts s) with
  | error e => simp [Except.map]
  | ok n =>
    rw [Except.map, Except.ok.injEq, Except.ok.injEq]
    exact ⟨congrArg bits, congrArg Dialect.mk⟩

theorem ofNames_of_first_unknown (hs : parts s = ps ++ p :: qs) (h : ∀ q ∈ ps, ¬Unknown q)
    (hp : Unknown p) : ofNames s = .error ⟨Text.trim p⟩ := by
  rw [ofNames, hs, union_of_first_unknown h hp]
  rfl

theorem exists_error_iff : (∃ e, ofNames s = .error e) ↔ ∃ p ∈ parts s, Unknown p := by
  constructor
  · rintro ⟨e, he⟩
    by_cases hn : ∃ p ∈ parts s, Unknown p
    · exact hn
    · have hk : ∀ p ∈ parts s, ¬Unknown p := fun p hp hu ↦ hn ⟨p, hp, hu⟩
      have hd : ofNames s = .ok ⟨joined (parts s)⟩ := ofNames_eq_ok_iff.mpr ⟨hk, rfl⟩
      rw [he] at hd
      cases hd
  · intro h
    cases hs : ofNames s with
    | error e => exact ⟨e, rfl⟩
    | ok d =>
      obtain ⟨p, hp, hu⟩ := h
      exact absurd hu ((ofNames_eq_ok_iff.mp hs).1 p hp)

theorem parts_append (s t : String) : parts (s ++ "," ++ t) = parts s ++ parts t := by
  have hc : ",".toList = [','] := rfl
  rw [parts, String.toList_append, String.toList_append, hc, List.append_assoc,
    List.singleton_append, List.splitOn_append_cons_self, List.map_append]
  rfl

theorem testBit_joined : (joined ps).testBit k = ps.any fun p ↦ (flags (nameOf p)).testBit k := by
  induction ps with
  | nil => exact Nat.zero_testBit k
  | cons p ps ih =>
    rw [List.any_cons, ← ih]
    exact Nat.testBit_or _ _ k

theorem joined_append (ps qs : List String) : joined (ps ++ qs) = joined ps ||| joined qs := by
  apply Nat.eq_of_testBit_eq
  intro k
  rw [Nat.testBit_or, testBit_joined, testBit_joined, testBit_joined, List.any_append]

theorem flags_blank : flags "" = 0 := rfl

theorem flags_lt (name : String) : flags name < 8 := by
  have hnames : ∀ q ∈ names, q.2 < 8 := by decide
  rw [flags]
  split
  · decide
  · cases hl : names.lookup name with
    | none => decide
    | some flag =>
      obtain ⟨front, back, hs, -⟩ := List.lookup_eq_some_iff.mp hl
      exact hnames (name, flag) (hs ▸ List.mem_append_right front List.mem_cons_self)

theorem joined_lt (ps : List String) : joined ps < 8 := by
  induction ps with
  | nil => decide
  | cons p ps ih => exact Nat.or_lt_two_pow (n := 3) (flags_lt _) ih

theorem exists_behaviour (h : (joined ps).testBit k = true) : ∃ b : Behaviour, b.bit = k := by
  have hk : k < 3 := by
    rcases Nat.lt_or_ge k 3 with hk | hk
    · exact hk
    · have hlt := Nat.lt_of_lt_of_le (joined_lt ps) (Nat.pow_le_pow_right Nat.two_pos hk)
      rw [Nat.testBit_lt_two_pow hlt] at h
      cases h
  match k, hk with
  | 0, _ => exact ⟨.shiftsSecond, rfl⟩
  | 1, _ => exact ⟨.jumpsByX, rfl⟩
  | 2, _ => exact ⟨.movesIndex, rfl⟩

def SameNames (ps qs : List String) : Prop :=
  ∀ name, name ≠ "" → (name ∈ ps.map nameOf ↔ name ∈ qs.map nameOf)

theorem SameNames.symm (h : SameNames ps qs) : SameNames qs ps := fun name hn ↦ (h name hn).symm

theorem SameNames.trans {rs : List String} (h : SameNames ps qs) (h' : SameNames qs rs) :
    SameNames ps rs := fun name hn ↦ (h name hn).trans (h' name hn)

theorem SameNames.of_perm (h : ps.Perm qs) : SameNames ps qs := fun _ _ ↦ (h.map nameOf).mem_iff

theorem SameNames.known (h : SameNames ps qs) (hp : ∀ p ∈ ps, ¬Unknown p) : ∀ q ∈ qs, ¬Unknown q := by
  intro q hq hu
  obtain ⟨p, hm, hn⟩ := List.mem_map.mp ((h _ hu.1).mpr (List.mem_map_of_mem hq))
  have hu' : Unknown p := by
    rw [Unknown, hn]
    exact hu
  exact hp p hm hu'

theorem SameNames.joined_le (h : SameNames ps qs) (hk : (joined ps).testBit k = true) :
    (joined qs).testBit k = true := by
  rw [testBit_joined, List.any_eq_true] at hk ⊢
  obtain ⟨p, hp, hb⟩ := hk
  have hne : nameOf p ≠ "" := by
    intro hn
    rw [hn, flags_blank, Nat.zero_testBit] at hb
    cases hb
  obtain ⟨q, hq, hn⟩ := List.mem_map.mp ((h _ hne).mp (List.mem_map_of_mem hp))
  refine ⟨q, hq, ?_⟩
  rw [hn]
  exact hb

theorem SameNames.joined_eq (h : SameNames ps qs) : joined ps = joined qs := by
  apply Nat.eq_of_testBit_eq
  intro k
  rw [Bool.eq_iff_iff]
  exact ⟨h.joined_le, h.symm.joined_le⟩

/-- Another way to write a list of parts: in another order, with a part once more, with a blank
part, with blanks around a part, or with a name in other capitals. -/
inductive Rewritten : List String → List String → Prop
  | reorder (ps qs : List String) (h : ps.Perm qs) : Rewritten ps qs
  | again (front back : List String) (p : String) (h : p ∈ front ++ back) :
      Rewritten (front ++ back) (front ++ p :: back)
  | blank (front back : List String) (b : String) (h : ∀ c ∈ b.toList, Text.isBlank c = true) :
      Rewritten (front ++ back) (front ++ b :: back)
  | space (front back : List String) (a p b : String) (ha : ∀ c ∈ a.toList, Text.isBlank c = true)
      (hb : ∀ c ∈ b.toList, Text.isBlank c = true) :
      Rewritten (front ++ p :: back) (front ++ (a ++ p ++ b) :: back)
  | recase (front back : List String) (p q : String)
      (h : Text.lowercase (Text.trim p) = Text.lowercase (Text.trim q)) :
      Rewritten (front ++ p :: back) (front ++ q :: back)

theorem sameNames_insert {front back : List String}
    (h : nameOf p ≠ "" → nameOf p ∈ (front ++ back).map nameOf) :
    SameNames (front ++ back) (front ++ p :: back) := by
  intro name hn
  have hm : ((front ++ p :: back).map nameOf).Perm (nameOf p :: (front ++ back).map nameOf) :=
    List.perm_middle.map nameOf
  rw [hm.mem_iff, List.mem_cons]
  constructor
  · exact .inr
  · rintro (rfl | hmem)
    · exact h hn
    · exact hmem

theorem sameNames_replace (h : nameOf p = nameOf q) (front back : List String) :
    SameNames (front ++ p :: back) (front ++ q :: back) := by
  intro name _
  rw [List.map_append, List.map_append, List.map_cons, List.map_cons, h]

theorem Rewritten.sameNames (h : Rewritten ps qs) : SameNames ps qs := by
  cases h with
  | reorder _ _ h => exact .of_perm h
  | again front back p h => exact sameNames_insert fun _ ↦ List.mem_map_of_mem h
  | blank front back b h =>
    refine sameNames_insert fun hn ↦ absurd ?_ hn
    rw [nameOf, Text.trim_of_blank h]
    rfl
  | space front back a p b ha hb =>
    refine sameNames_replace ?_ front back
    rw [nameOf, nameOf, Text.trim_append_append ha hb]
  | recase front back p q h => exact sameNames_replace h front back

theorem SameNames.of_eqvGen (h : Relation.EqvGen Rewritten ps qs) : SameNames ps qs := by
  induction h with
  | rel ps qs h => exact h.sameNames
  | refl ps => exact fun _ _ ↦ Iff.rfl
  | symm ps qs _ ih => exact ih.symm
  | trans ps qs rs _ _ ih ih' => exact ih.trans ih'

theorem ofNames_of_sameNames (h : SameNames (parts s) (parts t)) (hs : ofNames s = .ok d) :
    ofNames t = .ok d := by
  obtain ⟨hk, hd⟩ := ofNames_eq_ok_iff.mp hs
  exact ofNames_eq_ok_iff.mpr ⟨h.known hk, h.joined_eq.symm.trans hd⟩

theorem message_eq (name : String) :
    UnknownName.message ⟨name⟩ =
      "Unknown quirk \"" ++ name ++ "\" (expected one of: shift-vy, bnnn-vx, fx-i, all)" := by
  have hlist : ", ".intercalate (names.map Prod.fst) = "shift-vy, bnnn-vx, fx-i" := by
    decide +kernel
  unfold UnknownName.message
  rw [hlist]
  simp [String.append_assoc]

/-- Two lists that stand for dialects stand for their union when they are joined by a comma, and a
list that is rewritten stands for the same dialect, which has no bit but those of the behaviours. A
list stands for none exactly when it has an unknown part, and the message quotes the first of them.
-/
theorem lists_are_sets_of_names (s t : String) :
    (∀ d d', ofNames s = .ok d → ofNames t = .ok d' →
      ofNames (s ++ "," ++ t) = .ok ⟨d.bits ||| d'.bits⟩) ∧
      (∀ d, ofNames s = .ok d → Relation.EqvGen Rewritten (parts s) (parts t) → ofNames t = .ok d) ∧
      (∀ d k, ofNames s = .ok d → d.bits.testBit k = true → ∃ b : Behaviour, b.bit = k) ∧
      ((∃ e, ofNames s = .error e) ↔ ∃ p ∈ parts s, Unknown p) ∧
      ∀ front p back, parts s = front ++ p :: back → (∀ q ∈ front, ¬Unknown q) → Unknown p →
        ∃ e, ofNames s = .error e ∧ e.message =
          "Unknown quirk \"" ++ Text.trim p ++ "\" (expected one of: shift-vy, bnnn-vx, fx-i, all)" := by
  refine ⟨?_, fun d hs h ↦ ofNames_of_sameNames (.of_eqvGen h) hs, ?_, exists_error_iff, ?_⟩
  · intro d d' hs ht
    obtain ⟨hks, hd⟩ := ofNames_eq_ok_iff.mp hs
    obtain ⟨hkt, hd'⟩ := ofNames_eq_ok_iff.mp ht
    rw [ofNames_eq_ok_iff, parts_append, joined_append, hd, hd']
    refine ⟨fun p hp ↦ ?_, rfl⟩
    rcases List.mem_append.mp hp with hp | hp
    · exact hks p hp
    · exact hkt p hp
  · intro d k hs hk
    rw [← (ofNames_eq_ok_iff.mp hs).2] at hk
    exact exists_behaviour hk
  · intro front p back hs hfront hp
    exact ⟨_, ofNames_of_first_unknown hs hfront hp, message_eq (Text.trim p)⟩

/-- The same two names in other capitals, in the other order, one of them twice, and a blank part.
-/
theorem rewritten_list_read_alike :
    ofNames " Shift-VY ,fx-i" = .ok ⟨5⟩ ∧ ofNames "FX-I,,shift-vy,fx-i" = .ok ⟨5⟩ ∧
      ofNames " Shift-VY ,fx-i,BNNN-vx" = .ok ⟨7⟩ ∧
      ∃ e, ofNames "fx-i, Turbo ,all,warp" = .error e ∧
        e.message = "Unknown quirk \"Turbo\" (expected one of: shift-vy, bnnn-vx, fx-i, all)" := by
  have hs : ofNames " Shift-VY ,fx-i" = .ok ⟨5⟩ :=
    ofNames_eq_ok_iff.mpr (by decide +kernel)
  have ht : ofNames "BNNN-vx" = .ok ⟨2⟩ := ofNames_eq_ok_iff.mpr (by decide +kernel)
  have hlist : Relation.EqvGen Rewritten [" Shift-VY ", "fx-i"] ["FX-I", "", "shift-vy", "fx-i"] := by
    have h₁ : Rewritten [" Shift-VY ", "fx-i"] ["shift-vy", "fx-i"] :=
      .recase [] ["fx-i"] " Shift-VY " "shift-vy" (by decide +kernel)
    have h₂ : Rewritten ["shift-vy", "fx-i"] ["fx-i", "shift-vy"] := .reorder _ _ (.swap _ _ [])
    have h₃ : Rewritten ["fx-i", "shift-vy"] ["fx-i", "", "shift-vy"] :=
      .blank ["fx-i"] ["shift-vy"] "" (by simp)
    have h₄ : Rewritten ["fx-i", "", "shift-vy"] ["fx-i", "", "shift-vy", "fx-i"] :=
      .again ["fx-i", "", "shift-vy"] [] "fx-i" (by decide)
    have h₅ : Rewritten ["fx-i", "", "shift-vy", "fx-i"] ["FX-I", "", "shift-vy", "fx-i"] :=
      .recase [] ["", "shift-vy", "fx-i"] "fx-i" "FX-I" (by decide +kernel)
    exact .trans _ _ _ (.rel _ _ h₁) (.trans _ _ _ (.rel _ _ h₂) (.trans _ _ _ (.rel _ _ h₃)
      (.trans _ _ _ (.rel _ _ h₄) (.rel _ _ h₅))))
  obtain ⟨-, hsame, -⟩ := lists_are_sets_of_names " Shift-VY ,fx-i" "FX-I,,shift-vy,fx-i"
  obtain ⟨hjoin, -⟩ := lists_are_sets_of_names " Shift-VY ,fx-i" "BNNN-vx"
  obtain ⟨-, -, -, -, htold⟩ := lists_are_sets_of_names "fx-i, Turbo ,all,warp" ""
  refine ⟨hs, hsame _ hs hlist, hjoin _ _ hs ht, ?_⟩
  exact htold ["fx-i"] " Turbo " ["all", "warp"] (by decide +kernel) (by decide +kernel) (by decide +kernel)

end Dialect

end Chip8
