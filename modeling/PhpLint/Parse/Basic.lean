import PhpLint.Concrete.Lowering

/-!
Parsing files and snippets. A parse always has a whole tree; what the grammar rejects is in the
list of errors and stands under error nodes.
-/

namespace PhpLint

structure Parse where
  tree : Tree
  errors : List ParseError
  deriving DecidableEq, Inhabited, Repr

namespace Parse

def tagBefore : String := "<?php "

def noTree : ParseError := ⟨"the PHP grammar produced no tree", 0⟩

/-- The text as one error, for a grammar that made nothing of it. -/
def unparsed (s : Source) : Green :=
  let text := Text.dropBytes s.base s.text
  .node .sourceFile (if text.isEmpty then [] else
    [.node .errorNode [.token .errorToken (.ofList text)]])

/-- Lowers what stands behind the first `base` bytes of a text. -/
def after (grammar : Grammar) (source : String) (base : Nat) : Except Token.Fault Parse :=
  let s : Source := ⟨source.toList, base⟩
  match grammar source with
  | none => .ok ⟨(unparsed s).toTree, [noTree]⟩
  | some root =>
    let (green, cursor) := (Lower.lowerRoot s root source.utf8ByteSize).run (Lower.start s)
    match cursor.fault with
    | some fault => .error fault
    | none => .ok ⟨green.toTree, cursor.errors⟩

def file (grammar : Grammar) (source : String) : Except Token.Fault Parse := after grammar source 0

/-- Code without an open tag. -/
def snippet (grammar : Grammar) (text : String) : Except Token.Fault Parse :=
  after grammar (tagBefore ++ text) tagBefore.utf8ByteSize

/-- `line N: message` for each error of a source. -/
def describeErrors (source : String) (errors : List ParseError) : List String :=
  errors.map fun e => "line " ++ toString (Text.lineAt source e.offset) ++ ": " ++ e.message

end Parse

end PhpLint
