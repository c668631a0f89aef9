/-!
Paths as they are written: the pieces between the slashes. Two spellings of a path can have the
same parts, in which `.` and empty pieces no longer occur except in front; paths are compared by
their parts.
-/

namespace PhpLint

structure Path where
  pieces : List String
  deriving DecidableEq, Inhabited, Repr

/-- A part of a path. Parts are ordered as they are listed here. -/
inductive Path.Part where
  | root
  | here
  | up
  | name (text : String)
  deriving DecidableEq, Inhabited, Repr

namespace Path

def splitSlashes : List Char → List (List Char)
  | [] => [[]]
  | c :: cs =>
    if c = '/' then [] :: splitSlashes cs
    else match splitSlashes cs with
      | [] => [[c]]
      | piece :: pieces => (c :: piece) :: pieces

def ofText (text : String) : Path := ⟨(splitSlashes text.toList).map .ofList⟩

def isAbsolute (p : Path) : Bool :=
  match p.pieces with
  | "" :: _ :: _ => true
  | _ => false

def text (p : Path) : String := "/".intercalate p.pieces

/-- A piece behind the first one, unless it says nothing. -/
def partOf? (piece : String) : Option Part :=
  if piece = "" ∨ piece = "." then none
  else if piece = ".." then some .up
  else some (.name piece)

/-- The first piece, which alone can be the root or `.`. -/
def frontOf? (piece : String) (last : Bool) : Option Part :=
  if piece = "" then if last then none else some .root
  else if piece = "." then some .here
  else partOf? piece

def parts (p : Path) : List Part :=
  match p.pieces with
  | [] => []
  | first :: rest => (frontOf? first rest.isEmpty).toList ++ rest.filterMap partOf?

def isVoid (piece : String) : Bool := (partOf? piece).isNone

/-- The pieces behind the first, without those at the end that say nothing. -/
def trimEnd (pieces : List String) : List String := (pieces.reverse.dropWhile isVoid).reverse

/-- The path without its last part, none for the root and the empty path. -/
def parent? (p : Path) : Option Path :=
  match p.pieces with
  | [] => none
  | first :: rest =>
    match (trimEnd rest).reverse with
    | _ :: shorter =>
      let kept := trimEnd shorter.reverse
      some ⟨if first = "" ∧ kept = [] then ["", ""] else first :: kept⟩
    | [] => if first = "" then none else some ⟨[]⟩

/-- The last part, if it is a name. -/
def fileName? (p : Path) : Option String :=
  match p.parts.getLast? with
  | some (.name text) => some text
  | _ => none

/-- What stands behind the last dot of a file name. A dot in front begins no extension. -/
def extension? (p : Path) : Option String :=
  p.fileName?.bind fun name =>
    let cs := name.toList.reverse
    match cs.dropWhile (· != '.') with
    | _ :: _ :: _ => some (.ofList (cs.takeWhile (· != '.')).reverse)
    | _ => none

/-- Pieces without the first `n` parts. -/
def dropParts : Nat → List String → List String
  | _, [] => []
  | 0, piece :: rest => if isVoid piece then dropParts 0 rest else piece :: rest
  | n + 1, piece :: rest => if isVoid piece then dropParts (n + 1) rest else dropParts n rest

/-- The path below a base, if it stands there. -/
def below? (p base : Path) : Option Path :=
  if base.parts.isPrefixOf p.parts then
    match p.pieces, base.parts.length with
    | _ :: rest, n + 1 => some ⟨trimEnd (dropParts n rest)⟩
    | _, _ => some p
  else none

/-- A path as people are shown it: from a base, if it stands below that. -/
def shownFrom (p base : Path) : String := ((p.below? base).getD p).text

/-- A path taken relative to another one. An absolute path stays what it is. -/
def join (p q : Path) : Path :=
  if q.isAbsolute then q
  else match p.pieces.getLast? with
    | some "" => ⟨p.pieces.dropLast ++ q.pieces⟩
    | _ => ⟨p.pieces ++ q.pieces⟩

def child (p : Path) (name : String) : Path := p.join (ofText name)

def Part.rank : Part → Nat
  | .root => 0
  | .here => 1
  | .up => 2
  | .name _ => 3

def Part.precedes : Part → Part → Bool
  | .name a, .name b => a < b
  | a, b => a.rank < b.rank

/-- Order of parts, a path before those that continue it. -/
def partsPrecede : List Part → List Part → Bool
  | _, [] => false
  | [], _ :: _ => true
  | a :: as, b :: bs => a.precedes b || (a == b && partsPrecede as bs)

def precedes (p q : Path) : Bool := partsPrecede p.parts q.parts

end Path

end PhpLint
