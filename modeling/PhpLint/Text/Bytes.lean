/-!
Byte offsets into a text. Positions of a grammar count UTF-8 bytes; text itself is a list of
characters. A cut inside a character falls behind it, so that no cut loses anything.
-/

namespace PhpLint.Text

def byteLength : List Char → Nat
  | [] => 0
  | c :: cs => c.utf8Size + byteLength cs

theorem byteLength_append (a b : List Char) :
    byteLength (a ++ b) = byteLength a + byteLength b := by
  induction a with
  | nil => simp [byteLength]
  | cons c a ih => simp [byteLength, ih, Nat.add_assoc]

/-- The text of the first `n` bytes, and what follows it. -/
def splitBytes : Nat → List Char → List Char × List Char
  | 0, cs => ([], cs)
  | _ + 1, [] => ([], [])
  | n + 1, c :: cs =>
    let parts := splitBytes (n + 1 - c.utf8Size) cs
    (c :: parts.1, parts.2)

theorem splitBytes_append (n : Nat) (cs : List Char) :
    (splitBytes n cs).1 ++ (splitBytes n cs).2 = cs := by
  induction cs generalizing n with
  | nil => cases n <;> rfl
  | cons c cs ih => cases n with
    | zero => rfl
    | succ n => simp [splitBytes, ih]

def takeBytes (n : Nat) (cs : List Char) : List Char := (splitBytes n cs).1

def dropBytes (n : Nat) (cs : List Char) : List Char := (splitBytes n cs).2

/-- The text between two byte offsets. -/
def slice (cs : List Char) (start stop : Nat) : List Char :=
  takeBytes (stop - start) (dropBytes start cs)

end PhpLint.Text
