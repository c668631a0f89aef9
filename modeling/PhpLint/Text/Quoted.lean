import PhpLint.Text.Extender
import PhpLint.Text.Printable

/-!
Text in double quotes, as tree dumps show it. The quote, the backslash and the usual control
characters are escaped by name; what cannot be printed, or would attach to the character before
it, is escaped by number.
-/

namespace PhpLint.Text

/-- `\u` and the code point in hexadecimal between braces. -/
def escapeByNumber (c : Char) : List Char :=
  ['\\', 'u', Char.ofNat 0x7b] ++ Nat.toDigits 16 c.toNat ++ [Char.ofNat 0x7d]

def escapeChar (c : Char) : List Char :=
  match c with
  | '\x00' => ['\\', '0']
  | '\t' => ['\\', 't']
  | '\r' => ['\\', 'r']
  | '\n' => ['\\', 'n']
  | '\\' => ['\\', '\\']
  | '\x22' => ['\\', '\x22']
  | c => if isExtender c then escapeByNumber c else if isPrintable c then [c] else escapeByNumber c

def quoted (s : String) : String := .ofList ('\x22' :: s.toList.flatMap escapeChar ++ ['\x22'])

end PhpLint.Text
