import Mathlib.Data.List.Basic
import PhpLint.Text.Bytes

/-! Byte offsets between characters. At such an offset a cut takes exactly the bytes it is asked
for, so that a place in the text and the text behind it determine each other. -/

namespace PhpLint.Text

/-- The offset falls between two characters of the text, or at one of its ends. -/
def Boundary (text : List Char) (n : Nat) : Prop :=
  ∃ before behind, text = before ++ behind ∧ byteLength before = n

variable {text before behind : List Char} {n m : Nat}

theorem utf8ByteSize_ofList (text : List Char) :
    (String.ofList text).utf8ByteSize = byteLength text := by
  induction text with
  | nil => rfl
  | cons c text ih =>
    have hcons : String.ofList (c :: text) = String.singleton c ++ String.ofList text := by simp
    rw [hcons, String.utf8ByteSize_append, ih, byteLength, String.utf8ByteSize_singleton]

theorem byteLength_toList (text : String) : byteLength text.toList = text.utf8ByteSize := by
  rw [← utf8ByteSize_ofList, String.ofList_toList]

theorem eq_nil_of_byteLength_eq_zero (h : byteLength text = 0) : text = [] := by
  cases text with
  | nil => rfl
  | cons c text =>
    have := c.utf8Size_pos
    simp only [byteLength] at h
    omega

theorem splitBytes_byteLength (before behind : List Char) :
    splitBytes (byteLength before) (before ++ behind) = (before, behind) := by
  induction before with
  | nil => simp [byteLength, splitBytes]
  | cons c before ih =>
    obtain ⟨n, hn⟩ := Nat.exists_eq_add_of_le' c.utf8Size_pos
    have hlen : byteLength (c :: before) = n + byteLength before + 1 := by
      simp only [byteLength]
      omega
    have hsub : n + byteLength before + 1 - c.utf8Size = byteLength before := by omega
    rw [hlen, List.cons_append, splitBytes, hsub, ih]

/-- Of two fronts of one text the length tells them apart. -/
theorem eq_of_append_eq {before' behind' : List Char} (h : before ++ behind = before' ++ behind')
    (hlen : byteLength before = byteLength before') : before = before' := by
  have hsplit := splitBytes_byteLength before behind
  rw [h, hlen, splitBytes_byteLength] at hsplit
  exact (Prod.mk.inj hsplit).1.symm

theorem dropBytes_byteLength (before behind : List Char) :
    dropBytes (byteLength before) (before ++ behind) = behind := by
  rw [dropBytes, splitBytes_byteLength]

theorem slice_byteLength (before piece behind : List Char) :
    slice (before ++ (piece ++ behind)) (byteLength before) (byteLength before + byteLength piece) =
      piece := by
  rw [slice, Nat.add_sub_cancel_left, dropBytes_byteLength, takeBytes, splitBytes_byteLength]

theorem boundary_zero (text : List Char) : Boundary text 0 := ⟨[], text, rfl, rfl⟩

theorem boundary_byteLength (text : List Char) : Boundary text (byteLength text) :=
  ⟨text, [], by simp, rfl⟩

theorem utf8Size_of_toNat_lt {c : Char} (h : c.toNat < 0x80) : c.utf8Size = 1 :=
  Char.utf8Size_eq_one_iff.2 (UInt32.le_iff_toNat_le.2 (Nat.le_of_lt_succ h))

theorem byteLength_of_ascii (h : ∀ c ∈ text, c.utf8Size = 1) : byteLength text = text.length := by
  induction text with
  | nil => rfl
  | cons c text ih =>
    rw [List.forall_mem_cons] at h
    rw [byteLength, h.1, ih h.2, List.length_cons, Nat.add_comm]

theorem boundary_of_ascii (h : ∀ c ∈ text, c.utf8Size = 1) (hn : n ≤ text.length) :
    Boundary text n := by
  refine ⟨text.take n, text.drop n, (List.take_append_drop ..).symm, ?_⟩
  rw [byteLength_of_ascii fun c hc => h c (List.mem_of_mem_take hc), List.length_take_of_le hn]

/-- From one offset between characters to a later one there is a whole piece of text. -/
theorem Boundary.exists_piece (h : Boundary (before ++ behind) m) (hle : byteLength before ≤ m) :
    ∃ piece rest, behind = piece ++ rest ∧ byteLength before + byteLength piece = m := by
  obtain ⟨front, rest, htext, rfl⟩ := h
  rcases List.append_eq_append_iff.1 htext with ⟨piece, rfl, rfl⟩ | ⟨extra, rfl, rfl⟩
  · exact ⟨piece, rest, rfl, (byteLength_append ..).symm⟩
  · rw [byteLength_append] at hle
    have hnil : extra = [] := eq_nil_of_byteLength_eq_zero (by omega)
    exact ⟨[], behind, rfl, by simp [hnil, byteLength]⟩

end PhpLint.Text
