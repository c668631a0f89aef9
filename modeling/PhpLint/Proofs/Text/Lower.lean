import PhpLint.Proofs.Text.Bytes

/-! Folding the case of ASCII letters. A letter stays a letter of one byte, and nothing else changes. -/

namespace PhpLint.Text

variable {c d : Char}

theorem toNat_toLower (c : Char) :
    c.toLower.toNat = if 65 ≤ c.toNat ∧ c.toNat ≤ 90 then c.toNat + 32 else c.toNat := by
  have hrange : (c.val ≥ 'A'.val ∧ c.val ≤ 'Z'.val) ↔ (65 ≤ c.toNat ∧ c.toNat ≤ 90) := by
    rw [ge_iff_le, UInt32.le_iff_toNat_le, UInt32.le_iff_toNat_le]
    exact Iff.rfl
  delta Char.toLower
  simp only [hrange]
  split
  next hupper =>
    have hlt : c.val.toNat + 32 < 2 ^ 32 := by
      have : c.val.toNat ≤ 90 := hupper.2
      omega
    change (c.val + 32).toNat = c.val.toNat + 32
    rw [UInt32.toNat_add]
    exact Nat.mod_eq_of_lt hlt
  next => rfl

theorem toLower_toLower (c : Char) : c.toLower.toLower = c.toLower := by
  have hlower : ¬ (65 ≤ c.toLower.toNat ∧ c.toLower.toNat ≤ 90) := by
    rw [toNat_toLower]
    split <;> omega
  rw [← Char.toNat_inj, toNat_toLower c.toLower, if_neg hlower]

theorem toLower_eq_iff (hupper : ¬ (65 ≤ d.toNat ∧ d.toNat ≤ 90))
    (hlower : ¬ (97 ≤ d.toNat ∧ d.toNat ≤ 122)) : c.toLower = d ↔ c = d := by
  rw [← Char.toNat_inj, ← Char.toNat_inj, toNat_toLower]
  split <;> omega

theorem utf8Size_toLower (c : Char) : c.toLower.utf8Size = c.utf8Size := by
  have hsize := toNat_toLower c
  split at hsize
  next hupper =>
    rw [utf8Size_of_toNat_lt (c := c) (by omega), utf8Size_of_toNat_lt (by omega)]
  next => rw [Char.toNat_inj.1 hsize]

end PhpLint.Text
