import PhpLint.Proofs.Hierarchy.ClassName
import PhpLint.Proofs.Hierarchy.Memo
import PhpLint.Tree.Builder

/-! What a memo answers in front of the hierarchy of a file. It asks for the normal form of a name,
and the hierarchy takes the normal form of what it is asked for: only where these two are the same
name does it not matter whether there is a memo between. -/

namespace PhpLint

open ClassName

namespace Hierarchy

variable {h : Hierarchy} {name : String}

theorem ancestors_normalize (hsettled : Settled name) :
    h.ancestors (normalize name) = h.ancestors name := by
  rw [ancestors, normalize_normalize_iff.2 hsettled, ancestors]

theorem exists_blank_of_not_settled (hname : ¬ Settled name) :
    ∃ c ∈ (normalize name).toList.head?, Text.isBlank c = true := by
  simp only [Settled, not_forall, Bool.not_eq_false] at hname
  obtain ⟨c, hc, hblank⟩ := hname
  refine ⟨c.toLower, ?_, by rw [isBlank_toLower, hblank]⟩
  rw [ClassName.normalize, toList_toLower, List.head?_map, hc, Option.map_some]
  rfl

theorem any_isBlank_of_mem_builtin {entry : String × List String} (hentry : entry ∈ builtin) :
    entry.1.toList.head?.any Text.isBlank = false := by
  revert entry
  decide +kernel

theorem lookup_builtin_of_blank {c : Char} (hc : c ∈ name.toList.head?)
    (hblank : Text.isBlank c = true) : builtin.lookup name = none := by
  refine List.lookup_eq_none_iff.2 fun entry hentry => bne_iff_ne.2 fun heq => ?_
  have hany := any_isBlank_of_mem_builtin hentry
  rw [← heq, show name.toList.head? = some c from hc, Option.any_some, hblank] at hany
  cases hany

/-- A file that declares one class, with nothing above it. -/
def declaring (name : String) : Tree := .ofEvents
  [.start .sourceFile, .start .classDecl, .start .declaredName, .token .ident name, .finish,
    .finish, .finish]

theorem declaring_eq (name : String) : declaring name = ⟨#[
    ⟨.ident, some name, some 1, [], 0, 0, true⟩,
    ⟨.declaredName, none, some 2, [0], 0, 0, true⟩,
    ⟨.classDecl, none, some 3, [1], 0, 0, true⟩,
    ⟨.sourceFile, none, none, [2], 0, 0, true⟩], 3⟩ := by
  rfl

theorem rootNode_declaring (name : String) : (declaring name).rootNode =
    ⟨3, .sourceFile, none,
      [⟨2, .classDecl, none, [⟨1, .declaredName, none, [⟨0, .ident, some name, []⟩]⟩]⟩]⟩ := by
  rw [declaring_eq]
  rfl

theorem ofTree_declaring (name : String) :
    ofTree (declaring name) =
      ⟨(normalize name, []) :: builtin, [], "", [normalize name]⟩ := by
  rw [ofTree, rootNode_declaring]
  simp [ofRoot, scopeOf, importsOf, declsOf, Node.preorder, Node.preorderAll, Node.descendants,
    Node.declaredName?, Node.firstOfKind?, Node.text, Node.textAll, qualify, declare,
    Node.extendsNames, Node.implementsNames, Node.namesIn, Node.isToken, Kind.isClassLike,
    normalize_trim]

/-- Behind a memo a class is found under a name that begins with white space, though no class of
that name is known. -/
theorem ancestors_declaring (hname : ¬ Settled name) :
    (ofTree (declaring (normalize name))).ancestors (normalize name) = some [] ∧
      (ofTree (declaring (normalize name))).ancestors name = none := by
  rw [ofTree_declaring]
  constructor
  · simp [ancestors, parents?, reach]
  · have hne : normalize name ≠ normalize (normalize name) := fun h =>
      hname (normalize_normalize_iff.1 h.symm)
    obtain ⟨c, hc, hblank⟩ := exists_blank_of_not_settled hname
    rw [ancestors, parents?, List.lookup_cons, beq_false_of_ne hne,
      lookup_builtin_of_blank hc hblank]
    rfl

end Hierarchy

namespace Memo

/-- Asks for one name after the other. -/
def answers (m : Memo) : List String → List (Option (List String))
  | [] => []
  | name :: names => (m.ancestors name).1 :: (m.ancestors name).2.answers names

theorem Faithful.answers_eq {m : Memo} {classes : ClassLookup} (h : m.Faithful classes)
    (names : List String) :
    m.answers names = names.map fun name => classes.ancestors (normalize name) := by
  induction names generalizing m with
  | nil => rfl
  | cons name names ih => rw [answers, h.ancestors_eq, ih (h.ask name), List.map_cons]

/-- A memo answers for the normal form of a name, whatever it was asked before. The hierarchy of
every tree gives the same answers itself exactly if no name has white space right behind its leading
separators. -/
theorem answers_ofTree (names : List String) :
    (∀ t : Tree, (fresh (Hierarchy.ofTree t).lookup).answers names =
      names.map fun name => (Hierarchy.ofTree t).ancestors (normalize name)) ∧
    ((∀ t : Tree, (fresh (Hierarchy.ofTree t).lookup).answers names =
        names.map (Hierarchy.ofTree t).ancestors) ↔
      ∀ name ∈ names, Settled name) := by
  have hanswers : ∀ t : Tree, (fresh (Hierarchy.ofTree t).lookup).answers names =
      names.map fun name => (Hierarchy.ofTree t).ancestors (normalize name) := fun t =>
    (faithful_fresh _).answers_eq names
  refine ⟨hanswers, fun h name hname => ?_, fun h t => ?_⟩
  · by_contra hsettled
    obtain ⟨hfound, hunknown⟩ := Hierarchy.ancestors_declaring hsettled
    have heq := h (Hierarchy.declaring (normalize name))
    rw [hanswers, List.map_inj_left] at heq
    have := heq name hname
    rw [hfound, hunknown] at this
    cases this
  · rw [hanswers, List.map_inj_left]
    exact fun name hname => Hierarchy.ancestors_normalize (h name hname)

/-- Not so for a built-in class with a separator and a blank in front of its name. -/
theorem answers_ne_ancestors :
    (fresh (Hierarchy.ofTree (.ofEvents [.start .sourceFile, .finish])).lookup).answers
        ["\\ stdClass"] = [some []] ∧
      ["\\ stdClass"].map (Hierarchy.ofTree (.ofEvents [.start .sourceFile, .finish])).ancestors =
        [none] := by
  decide +kernel

end Memo

end PhpLint
