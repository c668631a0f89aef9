import PhpLint.Concrete.Green
import PhpLint.Concrete.Treatment
import PhpLint.Text.Blank
import PhpLint.Text.Line

/-!
From the concrete tree to the syntax tree, without loss. A cursor runs over the text and only
forwards; every token is cut off at the cursor, and what lies between two pieces becomes white
space, or an error where it is anything else.
-/

namespace PhpLint

structure ParseError where
  message : String
  offset : Nat
  deriving DecidableEq, Inhabited, Repr

/-- How far the text is used up, and what was found wrong on the way. -/
structure Cursor where
  pos : Nat
  rest : List Char
  errors : List ParseError
  fault : Option Token.Fault
  deriving DecidableEq, Inhabited, Repr

abbrev Lower := StateM Cursor

namespace Lower

/-- Offsets count from the base; what stands before it counts as offset zero. -/
def errorAt (s : Source) (message : String) (offset : Nat) : ParseError :=
  ⟨message, offset - s.base⟩

def expected (s : Source) (head : Head) : ParseError :=
  errorAt s ("expected `" ++ head.kind ++ "`") head.start

def unexpected (s : Source) (text : List Char) (offset : Nat) : ParseError :=
  errorAt s ("unexpected `" ++ Text.excerpt text ++ "`") offset

mutual

/-- The topmost errors of a piece, in order. -/
def errorsBelow (s : Source) : Concrete → List ParseError
  | ⟨head, children⟩ =>
    if head.missing then [expected s head]
    else if head.error then [unexpected s (Text.slice s.text head.start head.stop) head.start]
    else if head.faulty then errorsBelowAll s children
    else []

def errorsBelowAll (s : Source) : List Concrete → List ParseError
  | [] => []
  | c :: cs => errorsBelow s c ++ errorsBelowAll s cs

end

def report (errors : List ParseError) : Lower Unit :=
  modify fun c => { c with errors := c.errors ++ errors }

def note (fault : Token.Fault) : Lower Unit :=
  modify fun c => { c with fault := c.fault.or (some fault) }

/-- Cuts the text off the cursor up to a byte offset. -/
def cut (stop : Nat) : Lower (List Char) :=
  modifyGet fun c =>
    let parts := Text.splitBytes (stop - c.pos) c.rest
    (parts.1, { c with pos := stop, rest := parts.2 })

/-- Splits a text into runs of white space and of anything else. -/
def runs (text : List Char) : List (List Char) :=
  text.splitBy fun a b => Text.isBlank a == Text.isBlank b

def isBlankRun (run : List Char) : Bool := run.head?.any Text.isBlank

def gapToken (run : List Char) : Green :=
  .token (if isBlankRun run then .whitespace else .errorToken) (.ofList run)

def gapErrors (s : Source) (offset : Nat) : List (List Char) → List ParseError
  | [] => []
  | run :: rest =>
    (if isBlankRun run then [] else [unexpected s run offset])
      ++ gapErrors s (offset + Text.byteLength run) rest

/-- The text between the cursor and a byte offset. -/
def gap (s : Source) (stop : Nat) : Lower (List Green) := do
  let pos := (← get).pos
  if stop ≤ pos then return []
  let between := runs (← cut stop)
  report (gapErrors s pos between)
  return between.map gapToken

/-- A piece as one token; its errors are reported, its inside is not looked at. -/
def leaf (s : Source) (kind : Kind) (c : Concrete) : Lower (List Green) := do
  if c.head.faulty then report (errorsBelow s c)
  let before ← gap s c.start
  if c.stop ≤ (← get).pos then return before
  return before ++ [.token kind (.ofList (← cut c.stop))]

/-- What is asked of a child, apart from its own treatment. -/
inductive Role where
  | plain
  | skip
  /-- The callee of a keyword call. -/
  | keyword (kind : Kind)
  /-- An `if` that continues an else-if: its pieces before the first alternative. -/
  | leading
  /-- The same: its alternatives and what follows them. -/
  | trailing
  deriving DecidableEq, Inhabited, Repr

def isAlternative (c : Concrete) : Bool := c.kind == "else_if_clause" || c.kind == "else_clause"

def isDelimiter (c : Concrete) : Bool := ["list", "(", ")", "[", "]", ","].contains c.kind

/-- Number of pieces before the first alternative. -/
def leadingCount (children : List Concrete) : Nat := (children.takeWhile (!isAlternative ·)).length

/-- One element for a run of destructuring targets. -/
def targetElement : Option (List Green) → List Green
  | none => []
  | some run => [.node .arrayElement run]

def placeIn (parent : Head) (prev : Option String) (named : Bool) (c : Concrete)
    (cs : List Concrete) : Place :=
  ⟨some parent, prev, cs.head?.map (·.kind), !named && Treatment.isNameKind c.kind⟩

mutual

def lower (s : Source) (place : Place) (role : Role) : Concrete → Lower (List Green)
  | ⟨head, children⟩ =>
    match role with
    | .skip => return []
    | .keyword kind => leaf s kind ⟨head, children⟩
    | .leading =>
      let count := leadingCount children
      lowerAll s head (fun i => if i < count then .plain else .skip) 0 none false children
    | .trailing =>
      let count := leadingCount children
      lowerAll s head (fun i => if i < count then .skip else .plain) 0 none false children
    | .plain => do
      if head.missing then
        report [expected s head]
        return []
      if head.start = head.stop ∨ head.stop ≤ s.base then return []
      if head.error then
        report [unexpected s (Text.slice s.text head.start head.stop) head.start]
        let before ← gap s head.start
        let inner ← lowerAll s head (fun _ => .plain) 0 none false children
        let after ← gap s head.stop
        return before ++ [.node .errorNode (inner ++ after)]
      match Treatment.of s.text place ⟨head, children⟩ with
      | .error fault =>
        note fault
        leaf s .errorToken ⟨head, children⟩
      | .ok (.leaf kind) => leaf s kind ⟨head, children⟩
      | .ok (.wrapped node token) =>
        let before ← gap s head.start
        let inner ← leaf s token ⟨head, children⟩
        return before ++ [.node node inner]
      | .ok (.composite kind) =>
        let before ← gap s head.start
        let inner ← lowerAll s head (fun _ => .plain) 0 none false children
        let after ← gap s head.stop
        return before ++ [.node kind (inner ++ after)]
      | .ok .transparent =>
        let inner ← lowerAll s head (fun _ => .plain) 0 none false children
        let after ← gap s head.stop
        return inner ++ after
      | .ok (.keywordCall node keyword callee) =>
        let before ← gap s head.start
        let inner ← lowerAll s head (fun i => if i = callee then .keyword keyword else .plain) 0
          none false children
        let after ← gap s head.stop
        return before ++ [.node node (inner ++ after)]
      | .ok (.elseIf body) =>
        let before ← gap s head.start
        let inner ← lowerAll s head (fun i => if i = body then .leading else .plain) 0 none false
          children
        let others ← lowerAll s head (fun i => if i = body then .trailing else .skip) 0 none false
          children
        return before ++ .node .elseIfClause inner :: others
      | .ok .targets =>
        let before ← gap s head.start
        let inner ← lowerTargets s head none none false children
        let after ← gap s head.stop
        return before ++ [.node .arrayExpr (inner ++ after)]

/-- The children of a piece from number `i` on, each in its role. -/
def lowerAll (s : Source) (parent : Head) (role : Nat → Role) (i : Nat) (prev : Option String)
    (named : Bool) : List Concrete → Lower (List Green)
  | [] => return []
  | c :: cs => do
    let first ← lower s (placeIn parent prev named c cs) (role i) c
    let others ← lowerAll s parent role (i + 1) (some c.kind)
      (named || Treatment.isNameKind c.kind) cs
    return first ++ others

/-- Destructuring targets: each run between two delimiters is one element, which starts at its
first piece that is no comment. `run` holds the nodes of the element that is open, if one is. -/
def lowerTargets (s : Source) (parent : Head) (run : Option (List Green)) (prev : Option String)
    (named : Bool) : List Concrete → Lower (List Green)
  | [] => return targetElement run
  | c :: cs => do
    let place := placeIn parent prev named c cs
    let prev := some c.kind
    let named := named || Treatment.isNameKind c.kind
    if isDelimiter c then
      let first ← lower s place .plain c
      let others ← lowerTargets s parent none prev named cs
      return targetElement run ++ first ++ others
    else match run with
      | some open_ =>
        let first ← lower s place .plain c
        lowerTargets s parent (some (open_ ++ first)) prev named cs
      | none =>
        if c.kind = "comment" then
          let first ← lower s place .plain c
          let others ← lowerTargets s parent none prev named cs
          return first ++ others
        else
          let before ← gap s c.start
          let first ← lower s place .plain c
          let others ← lowerTargets s parent (some first) prev named cs
          return before ++ others

end

/-- A whole concrete tree, then the text behind it. -/
def lowerRoot (s : Source) (root : Concrete) (stop : Nat) : Lower Green := do
  let inner ← if root.kind = "program" then
      lowerAll s root.head (fun _ => .plain) 0 none false root.children
    else lower s ⟨none, none, none, false⟩ .plain root
  let after ← gap s stop
  return .node .sourceFile (inner ++ after)

/-- The children of a statement but the last, then the text up to a byte offset. -/
def lowerBody (s : Source) (statement : Concrete) (stop : Nat) : Lower Green := do
  let count := statement.children.length - 1
  let inner ← lowerAll s statement.head (fun i => if i < count then .plain else .skip) 0 none false
    statement.children
  let after ← gap s stop
  return .node .sourceFile (inner ++ after)

/-- The cursor behind the base of a text. -/
def start (s : Source) : Cursor := ⟨s.base, Text.dropBytes s.base s.text, [], none⟩

end Lower

end PhpLint
