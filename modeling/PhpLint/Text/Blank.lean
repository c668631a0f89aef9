/-!
White space is the Unicode property `White_Space`: twenty-five characters. Trimming and word
splitting use it and nothing narrower.
-/

namespace PhpLint.Text

def isBlank (c : Char) : Bool :=
  let n := c.toNat
  (0x09 ≤ n && n ≤ 0x0d) || n == 0x20 || n == 0x85 || n == 0xa0 || n == 0x1680
    || (0x2000 ≤ n && n ≤ 0x200a) || n == 0x2028 || n == 0x2029 || n == 0x202f || n == 0x205f
    || n == 0x3000

theorem isBlank_of_isWhitespace {c : Char} (h : c.isWhitespace = true) : isBlank c = true := by
  simp only [Char.isWhitespace, Bool.or_eq_true, decide_eq_true_eq] at h
  rcases h with ((rfl | rfl) | rfl) | rfl <;> decide

def trimStart (s : String) : String := .ofList (s.toList.dropWhile isBlank)

def trimEnd (s : String) : String := .ofList (s.toList.reverse.dropWhile isBlank).reverse

def trim (s : String) : String := trimEnd (trimStart s)

/-- The text with every white space character left out. -/
def squeeze (s : String) : String := .ofList (s.toList.filter (!isBlank ·))

end PhpLint.Text
