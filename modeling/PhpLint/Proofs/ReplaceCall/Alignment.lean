import PhpLint.Proofs.ReplaceCall.Meaning

/-! Lists of replacements put one behind the other, as merging does. Whether each search keeps its
replacement is a matter of the lengths, but for texts that happen to be the same. -/

namespace PhpLint.ReplaceCall

open Argument

/-- The replacements of a call as merging lists them: one text is repeated for several searches. -/
def expanded (search : Argument) : Argument → List Bytes
  | .many replacements => replacements
  | .one replacement =>
    match search with
    | .one _ => [replacement]
    | .many searches =>
      if 1 < searches.length then List.replicate searches.length replacement else [replacement]

/-- Replacements for `n` searches, then replacements for `m`: the first are as many as their
searches, or their being too few or too many does not show. -/
def Aligned (n m : Nat) (first second : List Bytes) : Prop :=
  first.length = n ∨
  (first.length < n ∧ ∀ r ∈ second.take (n - first.length + m), r = []) ∨
  (n < first.length ∧
    ∀ i < m, (many (first.drop n ++ second)).entry i = (many second).entry i)

/-- One replacement for all searches does what this one did for its own. -/
def Spreads (search replacement : Argument) : Prop :=
  replacement.isOne ∨ search.texts.length ≤ 1 ∨ replacement.texts = [[]]

variable {search replacement : Argument} {first second : List Bytes} {n m i : Nat}

theorem entry_many_append_left (hi : i < first.length) :
    (many (first ++ second)).entry i = (many first).entry i := by
  rw [entry, entry, List.getElem?_append_left hi]

theorem entry_many_append_right (hi : first.length ≤ i) :
    (many (first ++ second)).entry i = (many second).entry (i - first.length) := by
  rw [entry, entry, List.getElem?_append_right hi]

theorem entry_many_eq_nil (hi : first.length ≤ i) : (many first).entry i = [] := by
  rw [entry, List.getElem?_eq_none hi]
  rfl

theorem forall_mem_take_eq_nil_iff {k : Nat} :
    (∀ r ∈ first.take k, r = []) ↔ ∀ i < k, (many first).entry i = [] := by
  constructor
  · intro h i hi
    by_cases hlen : i < first.length
    · rw [entry, List.getElem?_eq_getElem hlen]
      exact h _ (List.mem_take_iff_getElem.2 ⟨i, by omega, rfl⟩)
    · exact entry_many_eq_nil (Nat.not_lt.1 hlen)
  · intro h r hr
    obtain ⟨i, hi, rfl⟩ := List.mem_take_iff_getElem.1 hr
    have := h i (by omega)
    rwa [entry, List.getElem?_eq_getElem (by omega)] at this

theorem entry_expanded (hi : i < search.texts.length) :
    (many (expanded search replacement)).entry i = replacement.entry i := by
  cases replacement with
  | many replacements => rfl
  | one r =>
    cases search with
    | one s =>
      obtain rfl : i = 0 := Nat.lt_one_iff.1 hi
      rfl
    | many searches =>
      rw [texts] at hi
      rw [expanded]
      split
      case isTrue => simp [entry, hi]
      case isFalse h =>
        obtain rfl : i = 0 := by omega
        rfl

/-- Too few replacements: what moves up into the gap, and what moves up behind it, is empty. -/
theorem entries_short_iff (hn : first.length < n) :
    ((∀ i < n, (many (first ++ second)).entry i = (many first).entry i) ∧
      ∀ i < m, (many (first ++ second)).entry (n + i) = (many second).entry i) ↔
        ∀ r ∈ second.take (n - first.length + m), r = [] := by
  rw [forall_mem_take_eq_nil_iff]
  constructor
  · rintro ⟨hgap, hmoved⟩ i
    -- an entry is empty as it has moved into the gap, or as the one it has moved to is
    induction i using Nat.strongRecOn with
    | ind i ih =>
      intro hi
      by_cases hfew : i < n - first.length
      · have hnone : (many first).entry (first.length + i) = [] :=
          entry_many_eq_nil (Nat.le_add_right ..)
        have := hgap (first.length + i) (by omega)
        rw [hnone, entry_many_append_right (Nat.le_add_right ..), Nat.add_sub_cancel_left] at this
        exact this
      · have hplace : n + (i - (n - first.length)) = first.length + i := by omega
        have := hmoved (i - (n - first.length)) (by omega)
        rw [hplace, entry_many_append_right (Nat.le_add_right ..), Nat.add_sub_cancel_left] at this
        exact this.trans (ih _ (by omega) (by omega))
  · intro h
    refine ⟨fun i hi => ?_, fun i hi => ?_⟩
    · by_cases hlen : i < first.length
      · exact entry_many_append_left hlen
      · have hnone : (many first).entry i = [] := entry_many_eq_nil (by omega)
        rw [hnone, entry_many_append_right (by omega)]
        exact h _ (by omega)
    · rw [entry_many_append_right (by omega), h _ (by omega), h _ (by omega)]

/-- Too many replacements: the surplus stands in front of those that follow. -/
theorem entries_long_iff (hn : n < first.length) :
    ((∀ i < n, (many (first ++ second)).entry i = (many first).entry i) ∧
      ∀ i < m, (many (first ++ second)).entry (n + i) = (many second).entry i) ↔
        ∀ i < m, (many (first.drop n ++ second)).entry i = (many second).entry i := by
  have hdrop (i : Nat) :
      (many (first ++ second)).entry (n + i) = (many (first.drop n ++ second)).entry i := by
    rw [entry, entry, ← List.getElem?_drop, List.drop_append_of_le_length (Nat.le_of_lt hn)]
  simp only [hdrop]
  exact and_iff_right fun i hi => entry_many_append_left (Nat.lt_trans hi hn)

theorem entries_iff_aligned :
    ((∀ i < n, (many (first ++ second)).entry i = (many first).entry i) ∧
      ∀ i < m, (many (first ++ second)).entry (n + i) = (many second).entry i) ↔
        Aligned n m first second := by
  rcases Nat.lt_trichotomy first.length n with hshort | rfl | hlong
  · rw [entries_short_iff hshort]
    refine ⟨fun h => .inr (.inl ⟨hshort, h⟩), ?_⟩
    rintro (h | ⟨-, h⟩ | ⟨h, -⟩)
    · omega
    · exact h
    · omega
  · refine iff_of_true ⟨fun i hi => entry_many_append_left hi, fun i hi => ?_⟩ (.inl rfl)
    rw [entry_many_append_right (Nat.le_add_right ..), Nat.add_sub_cancel_left]
  · rw [entries_long_iff hlong]
    refine ⟨fun h => .inr (.inr ⟨hlong, h⟩), ?_⟩
    rintro (h | ⟨h, -⟩ | ⟨-, h⟩)
    · omega
    · omega
    · exact h

theorem forall_entry_eq_iff_spreads {r : Bytes}
    (hr : replacement = .one r ∨ replacement = .many [r]) :
    (∀ i < search.texts.length, r = replacement.entry i) ↔ Spreads search replacement := by
  rcases hr with rfl | rfl
  · exact iff_of_true (fun _ _ => rfl) (.inl rfl)
  · constructor
    · intro h
      by_cases hone : search.texts.length ≤ 1
      · exact .inr (.inl hone)
      · exact .inr (.inr (congrArg (fun r => [r]) (h 1 (by omega))))
    · rintro (h | h | h) i hi
      · cases h
      · obtain rfl : i = 0 := by omega
        rfl
      · obtain rfl : r = [] := List.singleton_inj.1 h
        cases i <;> rfl

/-- One call with the replacements of both lists does what the two do one after the other. -/
theorem pairs_separate_iff (es er ls lr : Argument) :
    pairs (.many (es.texts ++ ls.texts)) (.many (expanded es er ++ expanded ls lr)) =
        pairs es er ++ pairs ls lr ↔
      Aligned es.texts.length ls.texts.length (expanded es er) (expanded ls lr) := by
  rw [pairs_eq_append_iff, ← entries_iff_aligned]
  refine and_congr (forall₂_congr fun i hi => ?_) (forall₂_congr fun i hi => ?_)
  · rw [entry_expanded hi]
  · rw [entry_expanded hi]

theorem pairs_common_iff {es er ls lr : Argument} {r : Bytes} (he : er = .one r ∨ er = .many [r])
    (hl : lr = .one r ∨ lr = .many [r]) :
    pairs (.many (es.texts ++ ls.texts)) (.one r) = pairs es er ++ pairs ls lr ↔
      Spreads es er ∧ Spreads ls lr := by
  rw [pairs_eq_append_iff, ← forall_entry_eq_iff_spreads he, ← forall_entry_eq_iff_spreads hl]
  rfl

end PhpLint.ReplaceCall
