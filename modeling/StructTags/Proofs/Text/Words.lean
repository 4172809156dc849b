/-!
# Words around a character

Quotes and spaces cut a text into words. This file says where a word can stand in a text that is
cut at such a character:

* `append_cons_cases`, `append_cons_cases_last`: two cuts of one text at a character, of which one
  is the first or the last;
* `exists_append_of_notMem`, `isSuffix_of_notMem`, `cons_isInfix_of_notMem`: a word does not reach
  over a character that it does not have, and does not start with one that is not there;
* `isInfix_or_of_notMem`: so a word without the character stands on one side of it;
* **`isInfix_cases`**: two words around a character stand around it in a text that is cut there, or
  on one side of the cut.
-/

namespace StructTags.Text

section

variable {c : Char}

/-- A cut at the first place of a character is in front of all others. -/
theorem append_cons_cases {u v x y : List Char} (hu : c ∉ u) (h : u ++ c :: v = x ++ c :: y) :
    (x = u ∧ y = v) ∨ ∃ z, x = u ++ c :: z ∧ v = z ++ c :: y := by
  rcases List.append_eq_append_iff.mp h with ⟨w, rfl, hw⟩ | ⟨w, rfl, hw⟩
  · cases w with
    | nil => exact .inl ⟨List.append_nil u, (List.cons.inj hw).2.symm⟩
    | cons d w =>
      obtain ⟨rfl, rfl⟩ := List.cons.inj hw
      exact .inr ⟨w, rfl, rfl⟩
  · cases w with
    | nil => exact .inl ⟨(List.append_nil x).symm, (List.cons.inj hw).2⟩
    | cons d w =>
      obtain ⟨rfl, rfl⟩ := List.cons.inj hw
      exact absurd (List.mem_append_right x List.mem_cons_self) hu

/-- A cut at the last place of a character is behind all others. -/
theorem append_cons_cases_last {u v x y : List Char} (hv : c ∉ v)
    (h : u ++ c :: v = x ++ c :: y) :
    (x = u ∧ y = v) ∨ ∃ z, u = x ++ c :: z ∧ y = z ++ c :: v := by
  rcases List.append_eq_append_iff.mp h with ⟨w, rfl, hw⟩ | ⟨w, rfl, hw⟩
  · cases w with
    | nil => exact .inl ⟨List.append_nil u, (List.cons.inj hw).2.symm⟩
    | cons d w =>
      obtain ⟨rfl, rfl⟩ := List.cons.inj hw
      exact absurd (List.mem_append_right w List.mem_cons_self) hv
  · cases w with
    | nil => exact .inl ⟨(List.append_nil x).symm, (List.cons.inj hw).2⟩
    | cons d w =>
      obtain ⟨rfl, rfl⟩ := List.cons.inj hw
      exact .inr ⟨w, rfl, rfl⟩

/-- A word at the start of a text does not reach over a character that it does not have. -/
theorem exists_append_of_notMem {s w u v : List Char} (hw : c ∉ w) (h : s ++ c :: u = w ++ v) :
    ∃ z, s = w ++ z ∧ v = z ++ c :: u := by
  rcases List.append_eq_append_iff.mp h with ⟨z, rfl, hz⟩ | ⟨z, hs, hv⟩
  · cases z with
    | nil => exact ⟨[], by simp, hz.symm⟩
    | cons d z =>
      rw [(List.cons.inj hz).1] at hw
      exact absurd (List.mem_append_right s List.mem_cons_self) hw
  · exact ⟨z, hs, hv⟩

/-- A word at the end of a text does not reach over a character that it does not have. -/
theorem isSuffix_of_notMem {w p u : List Char} (hw : c ∉ w) (h : w <:+ p ++ c :: u) : w <:+ u := by
  obtain ⟨x, hx⟩ := h
  rcases List.append_eq_append_iff.mp hx with ⟨y, -, rfl⟩ | ⟨y, -, hy⟩
  · exact absurd (List.mem_append_right y List.mem_cons_self) hw
  · cases y with
    | nil =>
      rw [List.nil_append] at hy
      rw [← hy] at hw
      exact absurd List.mem_cons_self hw
    | cons d y => exact ⟨y, (List.cons.inj hy).2.symm⟩

/-- A word does not start in a text without its first character. -/
theorem cons_isInfix_of_notMem {w u v : List Char} (hu : c ∉ u) (h : c :: w <:+: u ++ v) :
    c :: w <:+: v := by
  induction u with
  | nil => exact h
  | cons d u ih =>
    rw [List.mem_cons, not_or] at hu
    rcases List.infix_cons_iff.mp h with h | h
    · exact absurd (List.cons_prefix_cons.mp h).1 hu.1
    · exact ih hu.2 h

/-- A word that does not have a character stands on one side of it. -/
theorem isInfix_or_of_notMem {w p q : List Char} (hw : c ∉ w) (h : w <:+: p ++ c :: q) :
    w <:+: p ∨ w <:+: q := by
  obtain ⟨u, v, huv⟩ := h
  rw [List.append_assoc] at huv
  rcases List.append_eq_append_iff.mp huv with ⟨z, rfl, hz⟩ | ⟨z, rfl, hz⟩
  · obtain ⟨y, rfl, -⟩ := exists_append_of_notMem hw hz.symm
    exact .inl ⟨u, y, List.append_assoc ..⟩
  · cases z with
    | nil =>
      cases w with
      | nil => exact .inl List.nil_infix
      | cons d w =>
        rw [(List.cons.inj hz).1] at hw
        exact absurd List.mem_cons_self hw
    | cons d z => exact .inr ⟨z, v, (List.append_assoc ..).trans (List.cons.inj hz).2.symm⟩

/-- Two words around a character stand around it where a text is cut at such a character, or else on
    one side of the cut. -/
theorem isInfix_cases {w₁ w₂ p q : List Char} (h₁ : c ∉ w₁) (h₂ : c ∉ w₂)
    (h : w₁ ++ c :: w₂ <:+: p ++ c :: q) :
    (w₁ <:+ p ∧ w₂ <+: q) ∨ w₁ ++ c :: w₂ <:+: p ∨ w₁ ++ c :: w₂ <:+: q := by
  rcases List.infix_append_iff.mp h with hp | hq | ⟨l₁, l₂, hsplit, hp, hq⟩
  · exact .inr (.inl hp)
  · rcases List.infix_cons_iff.mp hq with hstart | hq
    · cases w₁ with
      | nil => exact .inl ⟨List.nil_suffix, (List.cons_prefix_cons.mp hstart).2⟩
      | cons d w₁ =>
        rw [(List.cons_prefix_cons.mp hstart).1] at h₁
        exact absurd List.mem_cons_self h₁
    · exact .inr (.inr hq)
  · cases l₂ with
    | nil =>
      rw [List.append_nil] at hsplit
      exact .inr (.inl (hsplit ▸ hp.isInfix))
    | cons d l₂ =>
      obtain ⟨rfl, hrest⟩ := List.cons_prefix_cons.mp hq
      rcases append_cons_cases h₁ hsplit with ⟨rfl, rfl⟩ | ⟨z, -, rfl⟩
      · exact .inl ⟨hp, hrest⟩
      · exact absurd (List.mem_append_right z List.mem_cons_self) h₂

end

end StructTags.Text
