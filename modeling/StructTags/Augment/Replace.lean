import StructTags.Tag.Scan

/-!
# Replacing outside protected spans

All occurrences of a needle are replaced from left to right, except those that overlap a span of a
tag that carries msgpack. An occurrence that is left alone still counts as found: the search goes
on behind it.

* `beginsWith`: a needle that is not empty stands at the start of a text;
* `replaceFrom`: the replacement over a text at an offset, with the part already written;
* `replaceUnprotected`: the whole replacement;
* `replaceFrom_append`: what is already written only stands in front.
-/

namespace StructTags

/-! ## 1. Occurrences -/

/-- Whether the needle, if it is not empty, stands at the start of the text. -/
def beginsWith : (needle s : List Char) → Bool
  | n :: ns, c :: cs => c = n && ns.isPrefixOf cs
  | _, _ => false

theorem beginsWith_iff {needle s : List Char} :
    beginsWith needle s = true ↔ needle ≠ [] ∧ ∃ rest, s = needle ++ rest := by
  cases needle with
  | nil => simp [beginsWith]
  | cons n ns =>
    cases s with
    | nil => simp [beginsWith]
    | cons c cs =>
      simp only [beginsWith, Bool.and_eq_true, decide_eq_true_eq, List.isPrefixOf_iff_prefix]
      constructor
      · rintro ⟨rfl, rest, rfl⟩
        exact ⟨List.cons_ne_nil _ _, rest, rfl⟩
      · rintro ⟨-, rest, h⟩
        obtain ⟨rfl, rfl⟩ := List.cons.inj h
        exact ⟨rfl, rest, rfl⟩

/-! ## 2. The replacement -/

/-- Replaces in a text at the given offset; `written` is the output so far, last character first. -/
def replaceFrom (protectedSpans : List Span) (needle replacement : List Char) (offset : Nat)
    (written : List Char) : List Char → List Char
  | [] => written.reverse
  | c :: cs =>
    if beginsWith needle (c :: cs) then
      let here : Span := ⟨offset, offset + Text.byteLength needle⟩
      let put := if protectedSpans.any here.overlaps then needle else replacement
      replaceFrom protectedSpans needle replacement here.stop (put.reverse ++ written)
        (cs.drop (needle.length - 1))
    else
      replaceFrom protectedSpans needle replacement (offset + c.utf8Size) (c :: written) cs
termination_by s => s.length

/-- The text with the replacement for every occurrence of the needle that overlaps no tag with
    msgpack. -/
def replaceUnprotected (s needle replacement : List Char) : List Char :=
  replaceFrom (msgpackSpans s) needle replacement 0 [] s

/-! ## 3. One step -/

section

variable {protectedSpans : List Span} {needle replacement : List Char}

/-- What is already written only stands in front. -/
theorem replaceFrom_append (offset : Nat) (written : List Char) : (s : List Char) →
    replaceFrom protectedSpans needle replacement offset written s =
      written.reverse ++ replaceFrom protectedSpans needle replacement offset [] s
  | [] => by simp [replaceFrom]
  | c :: cs => by
    rw [replaceFrom]
    conv => rhs; rw [replaceFrom]
    split
    · dsimp only
      rw [replaceFrom_append _ _ (cs.drop _), replaceFrom_append _ (_ ++ []) (cs.drop _)]
      simp
    · rw [replaceFrom_append _ _ cs, replaceFrom_append _ [c] cs]
      simp
termination_by s => s.length

/-- Where the needle does not stand, one character is copied. -/
theorem replaceFrom_of_not_beginsWith {offset : Nat} {c : Char} {cs : List Char}
    (h : beginsWith needle (c :: cs) = false) :
    replaceFrom protectedSpans needle replacement offset [] (c :: cs) =
      c :: replaceFrom protectedSpans needle replacement (offset + c.utf8Size) [] cs := by
  rw [replaceFrom, if_neg (by simp [h]), replaceFrom_append]
  rfl

/-- Where the needle stands, it is replaced or copied as a whole. -/
theorem replaceFrom_needle (hne : needle ≠ []) (offset : Nat) (rest : List Char) :
    replaceFrom protectedSpans needle replacement offset [] (needle ++ rest) =
      (if protectedSpans.any (Span.mk offset (offset + Text.byteLength needle)).overlaps
        then needle else replacement) ++
      replaceFrom protectedSpans needle replacement (offset + Text.byteLength needle) [] rest := by
  obtain ⟨c, cs, rfl⟩ := List.exists_cons_of_ne_nil hne
  rw [List.cons_append, replaceFrom,
    if_pos (beginsWith_iff.mpr ⟨hne, rest, (List.cons_append ..).symm⟩), replaceFrom_append]
  simp

end

end StructTags
