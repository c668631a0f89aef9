import PhpLint.Kind

/-!
Tokens and the characters they start with. Every character beyond ASCII may stand in a name.
-/

namespace PhpLint

structure Token where
  kind : Kind
  text : String
  deriving DecidableEq, Inhabited, Repr

namespace Token

def isNameStart (c : Char) : Bool := c == '_' || c.isAlpha || 0x80 ≤ c.toNat

def isNamePart (c : Char) : Bool := c == '_' || c.isAlphanum || 0x80 ≤ c.toNat

theorem isNamePart_of_isNameStart {c : Char} (h : isNameStart c = true) : isNamePart c = true := by
  simp only [isNameStart, isNamePart, Char.isAlphanum, Bool.or_eq_true] at *
  rcases h with (h | h) | h <;> simp [h]

/-- Operators and punctuation, longest first, so that none hides behind its own beginning. -/
def operators : List (String × Kind) := [
  ("**=", .star2Eq), ("<<=", .shlEq), (">>=", .shrEq), ("<=>", .spaceship), ("...", .ellipsis),
  ("===", .eq3), ("!==", .neq2), ("??=", .question2Eq), ("?->", .nullsafeArrow), ("->", .arrow),
  ("=>", .fatArrow), ("::", .colon2), ("&&", .amp2), ("||", .pipe2), ("==", .eq2), ("!=", .neq),
  ("<>", .neq), ("<=", .lteq), (">=", .gteq), ("+=", .plusEq), ("-=", .minusEq), ("*=", .starEq),
  ("/=", .slashEq), (".=", .dotEq), ("%=", .percentEq), ("&=", .ampEq), ("|=", .pipeEq),
  ("^=", .caretEq), ("**", .star2), ("<<", .shl), (">>", .shr), ("??", .question2),
  ("++", .plus2), ("--", .minus2), ("(", .lParen), (")", .rParen), ("[", .lBrack),
  ("]", .rBrack), ("\x7b", .lCurly), ("\x7d", .rCurly), (";", .semicolon), (",", .comma),
  ("?", .question), (":", .colon), ("@", .atSign), ("=", .eq), ("!", .bang), ("<", .lt),
  (">", .gt), ("+", .plus), ("-", .minus), ("*", .star), ("/", .slash), ("%", .percent),
  (".", .dot), ("&", .amp), ("|", .pipe), ("^", .caret), ("~", .tilde), ("$", .dollar),
  ("\\", .backslash)]

end Token

end PhpLint
