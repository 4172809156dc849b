/-!
# Spans

A span is a stretch of a text, given by the byte offsets of its two ends. The start belongs to it,
the stop does not. Two spans overlap if some offset lies in both (`Span.overlaps_iff`, for spans
that are not empty).
-/

namespace StructTags

/-- The stretch of a text from one byte offset up to another. -/
structure Span where
  start : Nat
  stop : Nat
  deriving DecidableEq, Repr

namespace Span

/-- Whether each span starts before the other stops. -/
def overlaps (a b : Span) : Bool := a.start < b.stop && b.start < a.stop

theorem overlaps_iff {a b : Span} (ha : a.start < a.stop) (hb : b.start < b.stop) :
    a.overlaps b = true ↔ ∃ i, (a.start ≤ i ∧ i < a.stop) ∧ (b.start ≤ i ∧ i < b.stop) := by
  simp only [overlaps, Bool.and_eq_true, decide_eq_true_eq]
  constructor
  · intro h
    exact ⟨max a.start b.start, by omega⟩
  · rintro ⟨i, h⟩
    omega

end Span

end StructTags
