import PhpLint.Text.Quoted
import PhpLint.Tree.Node

/-!
The tree as indented lines `KIND@start..end`, tokens with their text in quotes.
-/

namespace PhpLint.Node

def dumpHead (n : Node) (depth start : Nat) : String :=
  String.ofList (List.replicate (2 * depth) ' ') ++ n.kind.label ++ "@" ++ toString start ++ ".."
    ++ toString (start + n.textLength)

mutual

def dump (depth start : Nat) : Node → String
  | ⟨id, kind, some text, children⟩ =>
    dumpHead ⟨id, kind, some text, children⟩ depth start ++ " " ++ Text.quoted text ++ "\n"
  | ⟨id, kind, none, children⟩ =>
    dumpHead ⟨id, kind, none, children⟩ depth start ++ "\n" ++ dumpAll (depth + 1) start children

def dumpAll (depth start : Nat) : List Node → String
  | [] => ""
  | n :: ns => dump depth start n ++ dumpAll depth (start + n.textLength) ns

end

end PhpLint.Node

namespace PhpLint.Tree

def dump (t : Tree) : String := t.rootNode.dump 0 0

end PhpLint.Tree
