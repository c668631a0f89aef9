import PhpLint.Proofs.Text.Bytes
import PhpLint.Text.Blank

/-! Stretches of white space in a text, by byte offsets. A stretch that ends before it begins is
empty, and counts as blank. -/

namespace PhpLint.Text

/-- Between the two offsets there is nothing but white space. -/
def Blank (text : List Char) (a b : Nat) : Prop := ∀ c ∈ slice text a b, isBlank c = true

variable {text : List Char} {a b c : Nat}

theorem slice_of_le (h : b ≤ a) : slice text a b = [] := by
  rw [slice, Nat.sub_eq_zero_of_le h, takeBytes, splitBytes]

theorem blank_of_le (h : b ≤ a) : Blank text a b := by
  simp [Blank, slice_of_le h]

theorem slice_append (ha : Boundary text a) (hb : Boundary text b) (hc : Boundary text c)
    (hab : a ≤ b) (hbc : b ≤ c) : slice text a c = slice text a b ++ slice text b c := by
  obtain ⟨before, behind, rfl, rfl⟩ := ha
  obtain ⟨piece, rest, rfl, rfl⟩ := hb.exists_piece hab
  rw [← byteLength_append, ← List.append_assoc] at *
  obtain ⟨next, last, rfl, rfl⟩ := hc.exists_piece hbc
  have hwhole := slice_byteLength before (piece ++ next) last
  have hfirst := slice_byteLength before piece (next ++ last)
  have hsecond := slice_byteLength (before ++ piece) next last
  simp only [byteLength_append, List.append_assoc, Nat.add_assoc] at *
  rw [hwhole, hfirst, hsecond]

/-- Two blank stretches, the second from where the first ends. -/
theorem Blank.trans (ha : Boundary text a) (hb : Boundary text b) (hc : Boundary text c)
    (h : Blank text a b) (h' : Blank text b c) : Blank text a c := by
  rcases Nat.le_total c a with hca | hac
  · exact blank_of_le hca
  rcases Nat.le_total a b with hab | hba
  · rcases Nat.le_total b c with hbc | hcb
    · rw [Blank, slice_append ha hb hc hab hbc]
      exact fun ch hch => (List.mem_append.1 hch).elim (h ch) (h' ch)
    · rw [Blank, slice_append ha hc hb hac hcb] at h
      exact fun ch hch => h ch (List.mem_append_left _ hch)
  · rw [Blank, slice_append hb ha hc hba hac] at h'
    exact fun ch hch => h' ch (List.mem_append_right _ hch)

end PhpLint.Text
