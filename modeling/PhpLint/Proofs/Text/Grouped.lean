import Mathlib.Logic.Function.Basic
import PhpLint.Text.Grouped

/-! Digits in groups. Whether a comma follows a digit is decided from the left, by the number of
digits still to come. So the groups are full from the right on, and only the first can be short. -/

namespace PhpLint.Text

variable {digits : List Char}

theorem comma_notMem_toDigits (n : Nat) : ',' ∉ Nat.toDigits 10 n := fun h => by
  have hdigit : ','.isDigit = true := Nat.isDigit_of_mem_toDigits (by decide) (by decide) h
  cases hdigit

/-- Grouping adds commas and nothing else. -/
theorem filter_groupDigits (h : ',' ∉ digits) : (groupDigits digits).filter (· != ',') = digits := by
  induction digits with
  | nil => rfl
  | cons c digits ih =>
    rw [List.mem_cons, not_or] at h
    have hc : (c != ',') = true := bne_iff_ne.2 (Ne.symm h.1)
    rw [groupDigits]
    split <;> simp [hc, ih h.2]

/-- The pieces between the commas: what is left over when digits are taken three at a time from the
right, and then threes. -/
theorem exists_splitOn_groupDigits (h : ',' ∉ digits) (hne : digits ≠ []) :
    ∃ first rest, (groupDigits digits).splitOn ',' = first :: rest ∧
      first.length = (digits.length - 1) % 3 + 1 ∧ ∀ group ∈ rest, group.length = 3 := by
  induction digits with
  | nil => exact absurd rfl hne
  | cons c digits ih =>
    rw [List.mem_cons, not_or] at h
    have hc : (c == ',') = false := beq_false_of_ne (Ne.symm h.1)
    cases digits with
    | nil =>
      refine ⟨[c], [], ?_, rfl, fun _ h => nomatch h⟩
      simp [groupDigits, List.splitOn_cons_eq_if_modifyHead, hc]
    | cons d digits =>
      obtain ⟨first, rest, hsplit, hfirst, hrest⟩ := ih h.2 (List.cons_ne_nil d digits)
      rw [groupDigits]
      simp only [List.length_cons, Nat.add_sub_cancel] at hfirst ⊢
      by_cases hfull : (digits.length + 1) % 3 = 0
      · -- The first piece has its three digits already, and `c` begins another.
        refine ⟨[c], first :: rest, ?_, ?_, List.forall_mem_cons.2 ⟨?_, hrest⟩⟩
        · simp [hfull, List.splitOn_cons_eq_if_modifyHead, hc, hsplit]
        · rw [hfull, List.length_singleton]
        · omega
      · refine ⟨c :: first, rest, ?_, ?_, hrest⟩
        · simp [hfull, List.splitOn_cons_eq_if_modifyHead, hc, hsplit]
        · rw [List.length_cons, hfirst]
          omega

theorem toDigits_of_grouped (n : Nat) :
    (grouped n).toList.filter (· != ',') = Nat.toDigits 10 n := by
  rw [grouped, String.toList_ofList, filter_groupDigits (comma_notMem_toDigits n)]

/-- Without its commas a grouped number is its decimal digits. Between the commas stand three digits
each time, before the first one to three, and no two numbers are grouped to the same text. -/
theorem grouped_digits_and_groups :
    (∀ n, (grouped n).toList.filter (· != ',') = Nat.toDigits 10 n ∧
      ∃ first rest, (grouped n).toList.splitOn ',' = first :: rest ∧
        1 ≤ first.length ∧ first.length ≤ 3 ∧ ∀ group ∈ rest, group.length = 3) ∧
    Function.Injective grouped := by
  refine ⟨fun n => ⟨toDigits_of_grouped n, ?_⟩, fun m n h => ?_⟩
  · obtain ⟨first, rest, hsplit, hfirst, hrest⟩ :=
      exists_splitOn_groupDigits (comma_notMem_toDigits n) Nat.toDigits_ne_nil
    rw [grouped, String.toList_ofList]
    exact ⟨first, rest, hsplit, by omega, by omega, hrest⟩
  · have hdigits : Nat.toDigits 10 m = Nat.toDigits 10 n := by
      rw [← toDigits_of_grouped, h, toDigits_of_grouped]
    calc
      m = Nat.ofDigitChars 10 (Nat.toDigits 10 m) 0 := Nat.ofDigitChars_ten_toDigits.symm
      _ = Nat.ofDigitChars 10 (Nat.toDigits 10 n) 0 := by rw [hdigits]
      _ = n := Nat.ofDigitChars_ten_toDigits

example : grouped 1234567 = "1,234,567" := by decide

end PhpLint.Text
