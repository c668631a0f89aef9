import PhpLint.Concrete.Lowering

/-! Which node is made of which piece. The outline of a concrete tree is what lowering builds, less
the tokens: it follows the treatments alone and never looks at a cursor. A piece is named by its
site, the way to it from the root, so that equal pieces at two places are told apart. -/

namespace PhpLint

namespace Concrete

/-- The piece at a site: the numbers of the children to go down to, one after the other. -/
def at? : Concrete → List Nat → Option Concrete
  | x, [] => some x
  | x, i :: site => x.children[i]?.bind (·.at? site)

@[simp] theorem at?_nil (x : Concrete) : x.at? [] = some x := rfl

theorem at?_cons (x : Concrete) (i : Nat) (site : List Nat) :
    x.at? (i :: site) = x.children[i]?.bind (·.at? site) := rfl

theorem at?_append (x : Concrete) (site below : List Nat) :
    x.at? (site ++ below) = (x.at? site).bind (·.at? below) := by
  induction site generalizing x with
  | nil => rfl
  | cons i site ih =>
    rw [List.cons_append, at?_cons, at?_cons]
    cases x.children[i]? with
    | none => rfl
    | some y => exact ih y

theorem at?_child {root x : Concrete} {site : List Nat} (h : root.at? site = some x) (i : Nat) :
    root.at? (site ++ [i]) = x.children[i]? := by
  rw [at?_append, h, Option.bind_some, at?_cons]
  cases x.children[i]? <;> rfl

end Concrete

/-- A node to be, with those below it. -/
structure Outline where
  kind : Kind
  /-- The site of the piece that the node is made of, if it is made of one. -/
  site : Option (List Nat)
  /-- The node was put off until pieces had been lowered that stand behind it. -/
  late : Bool
  children : List Outline
  deriving Inhabited, Repr

namespace Lower

/-- One element for a run of destructuring targets. -/
def outlineElement (late : Bool) : Option (List Outline) → List Outline
  | none => []
  | some run => [⟨.arrayElement, none, late, run⟩]

mutual

/-- The nodes that a piece at a site turns into. The alternatives of an `if` that continues an
`else` come after all that stands behind this `else`; they are late if there is something. -/
def outline (s : Source) (late : Bool) (site : List Nat) (place : Place) (role : Role) :
    Concrete → List Outline
  | ⟨head, children⟩ =>
    match role with
    | .skip | .keyword _ => []
    | .leading =>
      let count := leadingCount children
      outlineAll s late site head (fun i => if i < count then .plain else .skip) 0 none false
        children
    | .trailing =>
      let count := leadingCount children
      outlineAll s late site head (fun i => if i < count then .skip else .plain) 0 none false
        children
    | .plain =>
      if head.missing then []
      else if head.start = head.stop ∨ head.stop ≤ s.base then []
      else if head.error then
        [⟨.errorNode, some site, late,
          outlineAll s late site head (fun _ => .plain) 0 none false children⟩]
      else match Treatment.of s.text place ⟨head, children⟩ with
        | .error _ | .ok (.leaf _) => []
        | .ok (.wrapped node _) => [⟨node, some site, late, []⟩]
        | .ok (.composite kind) =>
          [⟨kind, some site, late,
            outlineAll s late site head (fun _ => .plain) 0 none false children⟩]
        | .ok .transparent => outlineAll s late site head (fun _ => .plain) 0 none false children
        | .ok (.keywordCall node keyword callee) =>
          [⟨node, some site, late,
            outlineAll s late site head (fun i => if i = callee then .keyword keyword else .plain) 0
              none false children⟩]
        | .ok (.elseIf body) =>
          ⟨.elseIfClause, none, late,
              outlineAll s late site head (fun i => if i = body then .leading else .plain) 0 none
                false children⟩
            :: outlineAll s (late || body + 1 < children.length) site head
              (fun i => if i = body then .trailing else .skip) 0 none false children
        | .ok .targets =>
          [⟨.arrayExpr, some site, late, outlineTargets s late site head none 0 none false children⟩]

/-- The nodes of the children of a piece from number `i` on, `site` being that of the piece. -/
def outlineAll (s : Source) (late : Bool) (site : List Nat) (parent : Head) (roles : Nat → Role)
    (i : Nat) (prev : Option String) (named : Bool) : List Concrete → List Outline
  | [] => []
  | c :: cs =>
    outline s late (site ++ [i]) (placeIn parent prev named c cs) (roles i) c
      ++ outlineAll s late site parent roles (i + 1) (some c.kind)
        (named || Treatment.isNameKind c.kind) cs

/-- The same for destructuring targets; `run` holds the nodes of the element that is open. -/
def outlineTargets (s : Source) (late : Bool) (site : List Nat) (parent : Head)
    (run : Option (List Outline)) (i : Nat) (prev : Option String) (named : Bool) :
    List Concrete → List Outline
  | [] => outlineElement late run
  | c :: cs =>
    let first := outline s late (site ++ [i]) (placeIn parent prev named c cs) .plain c
    let others (run : Option (List Outline)) :=
      outlineTargets s late site parent run (i + 1) (some c.kind)
        (named || Treatment.isNameKind c.kind) cs
    if isDelimiter c then outlineElement late run ++ first ++ others none
    else match run with
      | some open_ => others (some (open_ ++ first))
      | none => if c.kind = "comment" then first ++ others none else others (some first)

end

/-- The outline of the tree that a whole concrete tree is lowered to. -/
def rootOutline (s : Source) (root : Concrete) : Outline :=
  ⟨.sourceFile, none, false,
    if root.kind = "program" then outlineAll s false [] root.head (fun _ => .plain) 0 none false
      root.children
    else outline s false [] ⟨none, none, none, false⟩ .plain root⟩

end Lower

end PhpLint
