import PhpLint.Proofs.Concrete.Shapes
import PhpLint.Proofs.Parse.Fragments
import PhpLint.Proofs.Tree.Kinded

/-! The kinds in the trees of files, snippets and fragments, and in whatever is made of these by
grafts and edits. -/

namespace PhpLint

/-- A tree of a text as a grammar makes it, in which a continued `else` ends with its `if`. -/
structure Concrete.Regular (source : String) (base : Nat) (root : Concrete) : Prop where
  proper : root.Proper source.toList base
  chained : root.Chained

theorem Concrete.Regular.orderly {source : String} {base : Nat} {root : Concrete}
    (h : root.Regular source base) : root.Orderly source.toList :=
  ⟨h.proper.fits, h.proper.nested, h.chained⟩

namespace Green

mutual

/-- A tree of the right kinds is built in steps of the right kinds. -/
theorem kinded_events : ∀ g : Green, (∀ w ∈ g.leaves, w.1.isToken = true) →
    (∀ n ∈ g.nodes, n.1.isToken = false) → ∀ e ∈ g.events, e.Kinded
  | .token kind text, hleaves, _ => List.forall_mem_singleton.2 (hleaves _ List.mem_cons_self)
  | .node kind gs, hleaves, hnodes => by
    rw [nodes, List.forall_mem_cons] at hnodes
    rw [events, List.cons_append, List.forall_mem_cons, List.forall_mem_append,
      List.forall_mem_singleton]
    exact ⟨hnodes.1, kinded_eventsAll gs hleaves hnodes.2, trivial⟩

theorem kinded_eventsAll : ∀ gs : List Green, (∀ w ∈ leavesAll gs, w.1.isToken = true) →
    (∀ n ∈ nodesAll gs, n.1.isToken = false) → ∀ e ∈ eventsAll gs, e.Kinded
  | [], _, _ => nofun
  | g :: gs, hleaves, hnodes => by
    rw [leavesAll, List.forall_mem_append] at hleaves
    rw [nodesAll, List.forall_mem_append] at hnodes
    rw [eventsAll, List.forall_mem_append]
    exact ⟨kinded_events g hleaves.1 hnodes.1, kinded_eventsAll gs hleaves.2 hnodes.2⟩

end

end Green

namespace Lower

variable {s : Source} {root x : Concrete} {gs : List Green} {whole : Prop} {stop : Nat}

namespace Shaped

theorem kinded_toTree (h : Shaped whole gs) : (Green.node .sourceFile gs).toTree.Kinded :=
  Tree.kinded_ofEvents (Green.kinded_events _ h.tokens
    (List.forall_mem_cons.2 ⟨rfl, fun n hn => (h.nodes n hn).1⟩))

end Shaped

/-- The pieces of a file; the cursor begins at the base. -/
theorem shaped_rootPieces (hroot : whole → root.Orderly s.text) :
    Shaped whole (rootPieces s root (start s)).1 := by
  have h := inside_of_orderly hroot
  have hun : whole → (start s).pos ≤ max s.base root.start := fun _ => Nat.le_max_left ..
  rw [rootPieces]
  split
  · exact h.shaped_lowerAll _ (fun _ _ hrole => by cases hrole) hun
  · exact h.shaped_lower_plain _ hun

theorem shaped_upTo (hx : whole → x.Orderly s.text) (n : Nat) :
    Shaped whole (upTo s x stop n).1 := by
  rw [upTo]
  refine ((inside_of_orderly hx).shaped_lowerAll _ (fun j kind hrole => ?_)
    fun _ => Nat.le_max_left ..).append (shaped_gap _ _ _)
  split at hrole <;> cases hrole

end Lower

namespace Parse

variable {grammar : Grammar} {source : String} {base : Nat} {p : Parse} {whole : Prop}

theorem exists_shaped_of_after
    (hgrammar : whole → ∀ root, grammar source = some root → root.Orderly source.toList)
    (hp : after grammar source base = .ok p) :
    ∃ gs, p.tree = (Green.node .sourceFile gs).toTree ∧ Lower.Shaped whole gs := by
  cases hg : grammar source with
  | none =>
    rw [after, hg] at hp
    cases hp
    refine ⟨_, rfl, ?_⟩
    split
    · exact .nil
    · exact (Lower.Shaped.token rfl _).node rfl (Lower.single_of_not_isSolitary rfl)
  | some root =>
    have hlower := Lower.lowerRoot_eq ⟨source.toList, base⟩ root (Text.byteLength source.toList)
      (Lower.start ⟨source.toList, base⟩)
    rw [after_eq hg hlower] at hp
    split at hp
    next => cases hp
    next =>
      cases hp
      exact ⟨_, rfl, (Lower.shaped_rootPieces (s := ⟨source.toList, base⟩) fun hw =>
        hgrammar hw root hg).append (Lower.shaped_gap _ _ _)⟩

end Parse

namespace Fragment

variable {grammar : Grammar} {text : String} {kind : FragmentKind} {tree : Tree} {whole : Prop}

theorem exists_shaped_of_expressionTree
    (hgrammar : whole → ∀ root, grammar (Parse.tagBefore ++ text ++ ";") = some root →
      root.Orderly (Parse.tagBefore ++ text ++ ";").toList)
    (h : expressionTree grammar text = .ok tree) :
    ∃ gs, tree = (Green.node .sourceFile gs).toTree ∧ Lower.Shaped whole gs := by
  generalize hsource : Parse.tagBefore ++ text ++ ";" = source at *
  obtain ⟨root, x, hg, -, hx, -, -, rfl, -⟩ := exists_of_expressionTree_eq_ok hsource h
  have hmem := mem_of_onlyStatement?_eq_some hx
  exact ⟨_, rfl, Lower.shaped_upTo (s := ⟨source.toList, Parse.tagBefore.utf8ByteSize⟩)
    (fun hw => (hgrammar hw root hg).children x hmem) _⟩

theorem exists_shaped_of_treeOf
    (hgrammar : whole → ∀ source root, wrapped? kind text = some source →
      grammar source = some root → root.Orderly source.toList)
    (h : treeOf grammar kind text = .ok tree) :
    ∃ gs, tree = (Green.node .sourceFile gs).toTree ∧ Lower.Shaped whole gs := by
  cases kind with
  | token =>
    obtain ⟨word, hword, rfl⟩ := exists_of_tokenTree_eq_ok h
    exact ⟨_, rfl, .token (Token.isToken_of_classify hword) text⟩
  | statement =>
    obtain ⟨p, hsnippet, -, -, rfl⟩ := exists_of_statementTree_eq_ok h
    exact Parse.exists_shaped_of_after (fun hw root => hgrammar hw _ root rfl) hsnippet
  | expression =>
    exact exists_shaped_of_expressionTree (fun hw root => hgrammar hw _ root rfl) h

end Fragment

namespace Tree

/-- The trees that files, snippets and fragments are lowered to. -/
inductive Lowered : Tree → Prop
  | file {grammar : Grammar} {source : String} {p : Parse} :
    (∀ root, grammar source = some root → root.Regular source 0) →
    Parse.file grammar source = .ok p → Lowered p.tree
  | snippet {grammar : Grammar} {text : String} {p : Parse} :
    (∀ root, grammar (Parse.tagBefore ++ text) = some root →
      root.Regular (Parse.tagBefore ++ text) Parse.tagBefore.utf8ByteSize) →
    Parse.snippet grammar text = .ok p → Lowered p.tree
  | fragment {grammar : Grammar} {text : String} {kind : FragmentKind} {f : Fragment} :
    (∀ source root, Fragment.wrapped? kind text = some source → grammar source = some root →
      root.Regular source Parse.tagBefore.utf8ByteSize) →
    Fragment.parse grammar text kind = .ok f → Lowered f.tree

theorem Lowered.exists_shaped {t : Tree} (h : t.Lowered) :
    ∃ gs, t = (Green.node .sourceFile gs).toTree ∧ Lower.Shaped True gs := by
  cases h with
  | file hgrammar hp =>
    exact Parse.exists_shaped_of_after (fun _ root hg => (hgrammar root hg).orderly) hp
  | snippet hgrammar hp =>
    exact Parse.exists_shaped_of_after (fun _ root hg => (hgrammar root hg).orderly) hp
  | @fragment grammar text kind f hgrammar hf =>
    unfold Fragment.parse at hf
    split at hf
    next => cases hf
    next tree htree =>
      split at hf
      next =>
        cases hf
        exact Fragment.exists_shaped_of_treeOf
          (fun _ source root hsource hg => (hgrammar source root hsource hg).orderly) htree
      next => cases hf

/-- The trees that texts are lowered to, whatever a grammar makes of the text. -/
inductive Made : Tree → Prop
  | parse {grammar : Grammar} {source : String} {base : Nat} {p : Parse} :
    Parse.after grammar source base = .ok p → Made p.tree
  | fragment {grammar : Grammar} {text : String} {kind : FragmentKind} {tree : Tree} :
    Fragment.treeOf grammar kind text = .ok tree → Made tree

variable {t : Tree}

theorem Made.exists_shaped (h : Made t) :
    ∃ gs, t = (Green.node .sourceFile gs).toTree ∧ Lower.Shaped False gs := by
  cases h with
  | parse hp => exact Parse.exists_shaped_of_after False.elim hp
  | fragment hf => exact Fragment.exists_shaped_of_treeOf False.elim hf

theorem Made.sound_and_bare (h : Made t) : t.Sound ∧ t.Bare := by
  obtain ⟨gs, rfl, -⟩ := h.exists_shaped
  exact ⟨sound_ofEvents _, bare_ofEvents _⟩

theorem Made.kinded (h : Made t) : t.Kinded := by
  obtain ⟨gs, rfl, hshaped⟩ := h.exists_shaped
  exact hshaped.kinded_toTree

/-- An alternative of an `if` that is not the last piece behind its `else`: the comment behind the
`if` takes up the text of the second number. -/
example : ((Parse.after (fun _ => some (Parse.piece "program" 0 5 [Parse.piece "else_clause" 0 5 [
      Parse.piece "if_statement" 0 3 [Parse.piece "integer" 0 1 [],
        Parse.piece "else_clause" 2 3 [Parse.piece "integer" 2 3 []]],
      Parse.piece "comment" 4 5 []]])) "1 2 c" 0).toOption.map fun p =>
        (p.tree.kind 7, p.tree.children 7)) = some (.literal, []) := by decide +kernel

end Tree

end PhpLint
