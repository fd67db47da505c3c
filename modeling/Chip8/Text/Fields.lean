import Chip8.Text.Blank

namespace Chip8.Text

variable {cs bs : List Char} {fs : List (List Char)} {f : List Char} {c : Char}

def isSeparator (c : Char) : Bool := isBlank c || c == ','

def fields (cs : List Char) : List (List Char) := (cs.splitOnP isSeparator).filter (!·.isEmpty)

theorem isSeparator_of_isBlank (h : isBlank c = true) : isSeparator c = true := by
  rw [isSeparator, h]
  rfl

theorem fields_append_cons (hc : isSeparator c = true) (cs ds : List Char) :
    fields (cs ++ c :: ds) = fields cs ++ fields ds := by
  rw [fields, List.splitOnP_append_cons _ _ hc, List.filter_append]
  rfl

theorem fields_cons (hc : isSeparator c = true) (cs : List Char) : fields (c :: cs) = fields cs :=
  fields_append_cons hc [] cs

theorem fields_separators_append (h : ∀ c ∈ bs, isSeparator c = true) :
    fields (bs ++ cs) = fields cs := by
  induction bs with
  | nil => rfl
  | cons b bs ih =>
    rw [List.cons_append, fields_cons (h b List.mem_cons_self)]
    exact ih fun c hc ↦ h c (List.mem_cons_of_mem b hc)

theorem fields_append_separators (h : ∀ c ∈ bs, isSeparator c = true) :
    fields (cs ++ bs) = fields cs := by
  cases bs with
  | nil => rw [List.append_nil]
  | cons b bs =>
    have hbs : fields (bs ++ []) = [] :=
      fields_separators_append fun c hc ↦ h c (List.mem_cons_of_mem b hc)
    rw [List.append_nil] at hbs
    rw [fields_append_cons (h b List.mem_cons_self), hbs, List.append_nil]

theorem fields_trimStart (cs : List Char) : fields (trimStart cs) = fields cs := by
  have h : cs.takeWhile isBlank ++ trimStart cs = cs := List.takeWhile_append_dropWhile
  have hb : ∀ c ∈ cs.takeWhile isBlank, isSeparator c = true := fun c hc ↦
    isSeparator_of_isBlank (List.all_eq_true.mp List.all_takeWhile c hc)
  exact (fields_separators_append hb).symm.trans (congrArg fields h)

theorem fields_trimEnd (cs : List Char) : fields (trimEnd cs) = fields cs := by
  have h : trimEnd cs ++ (cs.reverse.takeWhile isBlank).reverse = cs := by
    rw [trimEnd, ← List.reverse_append, List.takeWhile_append_dropWhile, List.reverse_reverse]
  have hb : ∀ c ∈ (cs.reverse.takeWhile isBlank).reverse, isSeparator c = true := fun c hc ↦
    isSeparator_of_isBlank (List.all_eq_true.mp List.all_takeWhile c (List.mem_reverse.mp hc))
  exact (fields_append_separators hb).symm.trans (congrArg fields h)

theorem fields_trim (s : String) : fields (trim s).toList = fields s.toList := by
  rw [trim, String.toList_ofList, fields_trimEnd, fields_trimStart]

structure IsField (f : List Char) : Prop where
  ne_nil : f ≠ []
  whole : ∀ c ∈ f, isSeparator c = false

theorem isField_iff : IsField f ↔ (!f.isEmpty && f.all (!isSeparator ·)) = true := by
  rw [Bool.and_eq_true, Bool.not_eq_true', List.isEmpty_eq_false_iff, List.all_eq_true]
  simp only [Bool.not_eq_true']
  exact ⟨fun h ↦ ⟨h.ne_nil, h.whole⟩, fun h ↦ ⟨h.1, h.2⟩⟩

instance : Decidable (IsField f) := decidable_of_iff _ isField_iff.symm

theorem IsField.fields_eq (h : IsField f) : fields f = [f] := by
  rw [fields, List.splitOnP_eq_singleton h.whole, List.filter_cons_of_pos, List.filter_nil]
  rw [List.isEmpty_eq_false_iff.mpr h.ne_nil]
  rfl

theorem fields_intercalate (hc : isSeparator c = true) (hb : ∀ c ∈ bs, isSeparator c = true)
    (h : ∀ f ∈ fs, IsField f) : fields ((c :: bs).intercalate fs) = fs := by
  induction fs with
  | nil => rfl
  | cons f fs ih =>
    have hf := (h f List.mem_cons_self).fields_eq
    have hfs := ih fun g hg ↦ h g (List.mem_cons_of_mem f hg)
    cases fs with
    | nil =>
      rw [List.intercalate_singleton]
      exact hf
    | cons g fs =>
      rw [List.intercalate_cons_cons, List.append_assoc]
      calc fields (f ++ c :: (bs ++ (c :: bs).intercalate (g :: fs)))
          = fields f ++ fields (bs ++ (c :: bs).intercalate (g :: fs)) := fields_append_cons hc _ _
        _ = [f] ++ (g :: fs) := by rw [hf, fields_separators_append hb, hfs]

theorem not_mem_intercalate (hb : c ∉ bs) (h : ∀ f ∈ fs, c ∉ f) : c ∉ bs.intercalate fs := by
  induction fs with
  | nil => exact List.not_mem_nil
  | cons f fs ih =>
    have hf := h f List.mem_cons_self
    cases fs with
    | nil =>
      rw [List.intercalate_singleton]
      exact hf
    | cons g fs =>
      have hfs := ih fun g hg ↦ h g (List.mem_cons_of_mem f hg)
      rw [List.intercalate_cons_cons, List.mem_append, List.mem_append]
      simp only [hf, hb, hfs, or_self, not_false_eq_true]

theorem append_cons_inj {xs ys ss ts : List Char} (hx : c ∉ xs) (hy : c ∉ ys) :
    xs ++ c :: ss = ys ++ c :: ts ↔ xs = ys ∧ ss = ts := by
  refine ⟨fun h ↦ ?_, ?_⟩
  · have before {zs : List Char} (hz : c ∉ zs) (us : List Char) :
        (zs ++ c :: us).takeWhile (· != c) = zs := by
      have hp : ∀ a ∈ zs, (a != c) = true := by
        intro a ha
        exact bne_iff_ne.mpr (ne_of_mem_of_not_mem ha hz)
      rw [List.takeWhile_append_of_pos hp, List.takeWhile_cons_of_neg (by simp), List.append_nil]
    have hxy : xs = ys := by rw [← before hx ss, h, before hy ts]
    rw [hxy, List.append_cancel_left_eq, List.cons.injEq] at h
    exact ⟨hxy, h.2⟩
  · rintro ⟨rfl, rfl⟩
    rfl

end Chip8.Text
