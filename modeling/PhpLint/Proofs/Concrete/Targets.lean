import PhpLint.Proofs.Concrete.Calls

/-! Destructuring targets. Between two delimiters there is one element, from the first piece that is
no comment to the last piece; delimiters, comments in front and white space stand beside the
elements. Where the list begins is all that it takes from what was lowered before. -/

namespace PhpLint

namespace Concrete

variable {x : Concrete} {xs ys : List Concrete}

/-- The pieces between two delimiters, from the first that is no comment; nothing but comments makes
no run. -/
def targetRuns (xs : List Concrete) : List (List Concrete) :=
  ((xs.splitOnP Lower.isDelimiter).map (·.dropWhile (·.kind == "comment"))).filter (!·.isEmpty)

/-- Pieces of which none is a delimiter are one run. -/
theorem targetRuns_eq_singleton (h : ∀ y ∈ x :: xs, Lower.isDelimiter y = false)
    (hkind : x.kind ≠ "comment") : targetRuns (x :: xs) = [x :: xs] := by
  rw [targetRuns, List.splitOnP_eq_singleton h, List.map_singleton,
    List.dropWhile_cons_of_neg (by simpa using hkind)]
  rfl

end Concrete

namespace Green

variable {pos : Nat} {gs hs : List Green}

/-- The elements right below a node, each with the offset where it begins. -/
def elementsAt : Nat → List Green → List (Nat × List Green)
  | _, [] => []
  | pos, .token _ text :: gs => elementsAt (pos + text.utf8ByteSize) gs
  | pos, .node kind inner :: gs =>
    (if kind = .arrayElement then [(pos, inner)] else []) ++
      elementsAt (pos + span (leavesAll inner)) gs

theorem elementsAt_append (pos : Nat) (gs hs : List Green) :
    elementsAt pos (gs ++ hs) = elementsAt pos gs ++ elementsAt (pos + span (leavesAll gs)) hs := by
  induction gs generalizing pos with
  | nil => rfl
  | cons g gs ih =>
    cases g with
    | token kind text =>
      rw [List.cons_append, elementsAt, ih, elementsAt, leavesAll, leaves, List.singleton_append,
        span_cons, Nat.add_assoc]
    | node kind inner =>
      rw [List.cons_append, elementsAt, ih, elementsAt, leavesAll, leaves, span_append,
        List.append_assoc, Nat.add_assoc]

theorem elementsAt_of_tokens (h : ∀ g ∈ gs, ∃ kind text, g = .token kind text) (pos : Nat) :
    elementsAt pos gs = [] := by
  induction gs generalizing pos with
  | nil => rfl
  | cons g gs ih =>
    rw [List.forall_mem_cons] at h
    obtain ⟨⟨kind, text, rfl⟩, h⟩ := h
    rw [elementsAt, ih h]

end Green

namespace Lower

open Concrete Green

variable {s : Source} {P pos : Nat} {gs hs : List Green} {x : Concrete} {xs ys : List Concrete}
  {c d : Cursor} {kind : Kind} {p : Prop}

/-! ### Single pieces -/

/-- What begins at an offset takes up the text of a run, no more of it than lies behind `P`. -/
def Spans (P : Nat) (part : Nat × List Green) (run : List Concrete) : Prop :=
  ∃ first last, run.head? = some first ∧ run.getLast? = some last ∧
    part.1 = max P first.start ∧ part.1 + span (leavesAll part.2) = max P last.stop

/-- The nodes `gs`, which begin at the offset `pos`, are one element for each run, and tokens. Each
of the signs that does not end before `P` is a token of its own. -/
structure Grouped (P pos : Nat) (gs : List Green) (runs : List (List Concrete))
    (signs : List Concrete) : Prop where
  elements : List.Forall₂ (Spans P) (elementsAt pos gs) runs
  flat : ∀ g ∈ gs, (∃ kind text, g = .token kind text) ∨ ∃ inner, g = .node .arrayElement inner
  sign : ∀ y ∈ signs, P < y.stop → ∃ left kind text right, gs = left ++ .token kind text :: right ∧
    pos + span (leavesAll left) = max P y.start ∧ max P y.start + text.utf8ByteSize = y.stop

namespace Grouped

variable {runs runs' : List (List Concrete)} {signs signs' : List Concrete}

theorem of_tokens (h : ∀ g ∈ gs, ∃ kind text, g = .token kind text) : Grouped P pos gs [] [] := by
  refine ⟨?_, fun g hg => .inl (h g hg), nofun⟩
  rw [elementsAt_of_tokens h]
  exact .nil

theorem append (h : Grouped P pos gs runs signs)
    (h' : Grouped P (pos + span (leavesAll gs)) hs runs' signs') :
    Grouped P pos (gs ++ hs) (runs ++ runs') (signs ++ signs') := by
  refine ⟨?_, ?_, ?_⟩
  · rw [elementsAt_append]
    exact List.rel_append h.elements h'.elements
  · exact fun g hg => (List.mem_append.1 hg).elim (h.flat g) (h'.flat g)
  intro y hy hstop
  rcases List.mem_append.1 hy with hy | hy
  · obtain ⟨left, kind, text, right, rfl, hpos⟩ := h.sign y hy hstop
    exact ⟨left, kind, text, right ++ hs, by rw [List.append_assoc, List.cons_append], hpos⟩
  · obtain ⟨left, kind, text, right, rfl, hpos⟩ := h'.sign y hy hstop
    refine ⟨gs ++ left, kind, text, right, (List.append_assoc ..).symm, ?_⟩
    rwa [leavesAll_append, span_append, ← Nat.add_assoc]

/-- Behind the nodes so far the cursor goes on. -/
theorem append_took (h : Grouped P c.pos gs runs signs) (hc : Aligned s c) (htook : Took s c gs d p)
    (h' : Grouped P d.pos hs runs' signs') :
    Grouped P c.pos (gs ++ hs) (runs ++ runs') (signs ++ signs') :=
  h.append (htook.pos_eq hc ▸ h')

end Grouped

/-- The element that is open, from `pos` to where the cursor is: it begins with a run and ends where
the run does so far. If there is none, nothing has been made behind `pos`. -/
inductive Held (P pos : Nat) : Option (List Green) → List Concrete → Nat → Prop
  | none : P ≤ pos → Held P pos none [] pos
  | some {gs : List Green} {first last : Concrete} {ys : List Concrete} {here : Nat} :
    first.kind ≠ "comment" → (∀ y ∈ first :: ys, isDelimiter y = false) →
    (first :: ys).getLast? = .some last → pos = max P first.start →
    pos + span (leavesAll gs) = here → here = max P last.stop →
    Held P pos (.some gs) (first :: ys) here

/-- Closing what is open makes one element. -/
theorem Held.grouped {run : Option (List Green)} {here : Nat} (h : Held P pos run ys here) :
    Grouped P pos (targetElement run) (targetRuns ys) [] := by
  cases h with
  | none => exact .of_tokens nofun
  | some hkind hsign hlast hstart hspan hstop =>
    rw [targetRuns_eq_singleton hsign hkind]
    refine ⟨.cons ⟨_, _, rfl, hlast, hstart, hspan.trans hstop⟩ .nil, ?_, nofun⟩
    exact List.forall_mem_singleton.2 (.inr ⟨_, rfl⟩)

end Lower

end PhpLint
