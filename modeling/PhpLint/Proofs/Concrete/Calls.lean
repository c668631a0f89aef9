import PhpLint.Proofs.Concrete.Placing

/-! Which node comes out of lowering which piece. Every node that is made of one piece is the result
of a call: the cursor had got somewhere, by whatever came before, and from there the piece was
lowered. This holds of pieces in any order, so that of a node all can be said that is true of such a
call, whatever stands around its piece. -/

namespace PhpLint

namespace Lower

variable {s : Source} {root x y : Concrete} {pos : Nat} {gs hs : List Green} {os ps : List Outline}
  {c d : Cursor} {xs : List Concrete} {roles : Nat → Role} {site : List Nat} {late : Bool}
  {parent : Head} {prev : Option String} {named : Bool} {kind : Kind} {i : Nat} {p : Prop}

/-- Lowering a piece comes to a node around `inner`, which begins at the offset `pos`. -/
def Call (s : Source) (x : Concrete) (pos : Nat) (kind : Kind) (inner : List Green) : Prop :=
  ∃ place c before, Ready s c ∧ (lower s place .plain x c).1 = before ++ [.node kind inner] ∧
    pos = c.pos + Green.span (Green.leavesAll before)

/-- The nodes among `gs` are those of the outline, all the way down, if `gs` begins at the offset
`pos`. Each that is made of one piece comes out of a call for that piece. -/
inductive Called (s : Source) (root : Concrete) : Nat → List Green → List Outline → Prop
  | nil {pos : Nat} : Called s root pos [] []
  | token {pos : Nat} {kind : Kind} {text : String} {gs : List Green} {os : List Outline} :
    Called s root (pos + text.utf8ByteSize) gs os → Called s root pos (.token kind text :: gs) os
  | node {pos : Nat} {o : Outline} {inner gs : List Green} {os : List Outline} :
    Called s root pos inner o.children →
    (∀ site x, o.site = some site → root.at? site = some x → Call s x pos o.kind inner) →
    Called s root (pos + Green.span (Green.leavesAll inner)) gs os →
    Called s root pos (.node o.kind inner :: gs) (o :: os)

namespace Called

theorem append (h : Called s root pos gs os)
    (h' : Called s root (pos + Green.span (Green.leavesAll gs)) hs ps) :
    Called s root pos (gs ++ hs) (os ++ ps) := by
  induction h with
  | nil => exact h'
  | @token pos kind text gs os h ih =>
    refine .token (ih ?_)
    rwa [Green.leavesAll, Green.leaves, List.singleton_append, Green.span_cons, ← Nat.add_assoc]
      at h'
  | node h hcall hrest _ ihrest =>
    refine .node h hcall (ihrest ?_)
    rwa [Green.leavesAll, Green.leaves, Green.span_append, ← Nat.add_assoc] at h'

/-- Behind the nodes so far the cursor goes on. -/
theorem append_took (h : Called s root c.pos gs os) (hc : Aligned s c) (htook : Took s c gs d p)
    (h' : Called s root d.pos hs ps) : Called s root c.pos (gs ++ hs) (os ++ ps) :=
  h.append (htook.pos_eq hc ▸ h')

theorem of_tokens (h : ∀ g ∈ gs, ∃ kind text, g = .token kind text) (pos : Nat) :
    Called s root pos gs [] := by
  induction gs generalizing pos with
  | nil => exact .nil
  | cons g gs ih =>
    rw [List.forall_mem_cons] at h
    obtain ⟨⟨kind, text, rfl⟩, h⟩ := h
    exact .token (ih h _)

end Called

theorem called_gap (s : Source) (stop : Nat) (c : Cursor) (pos : Nat) :
    Called s root pos (gap s stop c).1 [] := .of_tokens (fun _ => exists_token_of_mem_gap) pos

theorem Called.gap (h : Called s root pos gs os) (stop : Nat) (d : Cursor) :
    Called s root pos (gs ++ (Lower.gap s stop d).1) os := by
  have hboth := h.append (called_gap s stop d _)
  rwa [List.append_nil] at hboth

/-! ### Pieces one after the other -/

end Lower

end PhpLint
