import PhpLint.Proofs.Equivalence.Plain
import PhpLint.Proofs.Parse.Fragments

/-! Nodes of parsed trees that are equivalent say the same, formatting aside, where nothing gets lost
in their codes. That the codes of keywords and operators are good for their spelling is owed to the
way tokens come about: a token is a whole piece of the source whose text the lexer took for a token
of that kind. -/

namespace PhpLint

namespace Concrete

/-- Truth values and null are spelled as such. -/
inductive WellSpelled (text : List Char) : Concrete → Prop
  | mk {head : Head} {children : List Concrete} :
    (head.kind = "boolean" → Text.slice text head.start head.stop = [] ∨
      (Treatment.spelling text ⟨head, children⟩).toLower ∈ ["true", "false"]) →
    (head.kind = "null" → Text.slice text head.start head.stop = [] ∨
      (Treatment.spelling text ⟨head, children⟩).toLower = "null") →
    (∀ c ∈ children, WellSpelled text c) → WellSpelled text ⟨head, children⟩

variable {text : List Char} {root x : Concrete}

theorem WellSpelled.of_below (h : root.WellSpelled text) (hx : root.Below x) : x.WellSpelled text := by
  induction hx with
  | root => exact h
  | child _ hy ih =>
    obtain ⟨-, -, hchildren⟩ := ih
    exact hchildren _ hy

/-- What a grammar makes of a source. -/
structure Readable (source : String) (base : Nat) (root : Concrete) : Prop where
  proper : root.Proper source.toList base
  spelled : root.WellSpelled source.toList

end Concrete

namespace Treatment

variable {text : List Char} {x : Concrete} {kind : Kind}

theorem Suits.spelled (h : Suits text x kind) (hx : x.WellSpelled text)
    (hne : spelling text x ≠ "") : Token.Spelled kind (spelling text x) := by
  have hplain : ∀ kind ∈ plainKinds, kind.isKeyword = false ∧
      kind.isOperatorOrPunctuation = false := by decide
  have hslice : Text.slice text x.start x.stop ≠ [] := fun hnil => hne (by rw [spelling, hnil])
  obtain ⟨hboolean, hnull, -⟩ := hx
  cases h with
  | plain hkind => exact Token.spelled_of_free (hplain _ hkind).1 (hplain _ hkind).2
  | scanned hclassify => exact Token.spelled_of_classify hclassify
  | unknown => exact Token.spelled_of_free rfl rfl
  | boolean hkind =>
    have hword := (hboolean hkind).resolve_left hslice
    simp only [List.mem_cons, List.not_mem_nil, or_false] at hword
    refine Token.spelled_of_mem_keywords ?_
    rcases hword with hword | hword <;> rw [hword] <;> decide
  | null hkind =>
    refine Token.spelled_of_mem_keywords ?_
    rw [(hnull hkind).resolve_left hslice]
    decide

end Treatment

theorem Lower.Origin.spelled {s : Source} {P : Concrete → Prop} {lost : Prop} {pos : Nat}
    {w : Kind × String} (h : Origin s P lost pos w) (hP : ∀ x, P x → x.WellSpelled s.text)
    (hne : w.2 ≠ "") : Token.Spelled w.1 w.2 := by
  have hcalled : ∀ p ∈ [("isset", Kind.issetKw), ("empty", .emptyKw)], p ∈ Kind.keywords := by decide
  cases h with
  | blank => exact Token.spelled_of_free rfl rfl
  | lost => exact Token.spelled_of_free rfl rfl
  | piece hx _ hgives =>
    rcases hgives.suits with hsuits | hkeyword
    · exact hsuits.spelled (hP _ hx) hne
    · exact Token.spelled_of_mem_keywords (hcalled _ hkeyword)

/-- What is known of the plain tree of a parse. -/
structure Parse.Legible (gs : List Green) : Prop where
  spelled : ∀ w ∈ Green.leavesAll gs, Token.Spelled w.1 w.2
  literal : ∀ n ∈ Green.nodesAll gs, n.1 = .literal →
    n.2 = [] ∨ ∃ kind text, n.2 = [.token kind text]

theorem Green.Along.forall {p : Nat → Kind × String → Prop} {pos : Nat}
    {ws : List (Kind × String)} (h : Along p pos ws) : ∀ w ∈ ws, ∃ pos, p pos w := by
  induction ws generalizing pos with
  | nil => simp
  | cons w ws ih =>
    rw [List.forall_mem_cons]
    exact ⟨⟨_, h.1⟩, ih h.2⟩

namespace Parse

variable {grammar : Grammar} {source : String} {base : Nat} {root : Concrete} {lost : Prop}
  {gs : List Green}

theorem Accounts.legible (h : Accounts source.toList base root lost gs)
    (hroot : root.WellSpelled source.toList) (hne : ∀ text ∈ Green.tokensAll gs, text ≠ "") :
    Legible gs where
  spelled := by
    intro w hw
    obtain ⟨pos, horigin⟩ := h.leaves.forall w hw
    refine horigin.spelled (fun _ => hroot.of_below) (hne _ ?_)
    rw [← Green.map_snd_leavesAll]
    exact List.mem_map_of_mem hw
  literal := fun n hn => (h.nodes n hn).2

theorem exists_legible_of_after (hbase : Text.Boundary source.toList base)
    (hgrammar : ∀ root, grammar source = some root → root.Readable source base) {p : Parse}
    (hp : after grammar source base = .ok p) :
    ∃ gs, p.tree = (Green.node .sourceFile gs).toTree ∧ Legible gs := by
  obtain ⟨gs, htree, -, hne⟩ := holds_text_of_after_eq_ok hbase
    (fun root hroot => (hgrammar root hroot).proper.fits) hp
  cases hg : grammar source with
  | none =>
    rw [after, hg] at hp
    cases hp
    refine ⟨_, rfl, ?_, ?_⟩
    · intro w hw
      split at hw
      · cases hw
      · obtain rfl := List.mem_singleton.1 hw
        exact Token.spelled_of_free rfl rfl
    · intro n hn
      split at hn
      · cases hn
      · obtain rfl := List.mem_singleton.1 hn
        exact fun hkind => absurd (show Kind.errorNode = .literal from hkind) (by decide)
  | some root =>
    obtain ⟨hs, htree', haccounts⟩ :=
      accounts_of_after_eq_ok hbase hg (hgrammar root hg).proper hp
    have hleaves : Green.leavesAll hs = Green.leavesAll gs := by
      rw [← Green.words_toTree .sourceFile, ← Green.words_toTree .sourceFile, ← htree', htree]
    refine ⟨hs, htree', haccounts.legible (hgrammar root hg).spelled ?_⟩
    rwa [← Green.map_snd_leavesAll, hleaves, Green.map_snd_leavesAll]

end Parse

namespace Fragment

variable {grammar : Grammar} {text : String} {kind : FragmentKind} {tree : Tree}

theorem exists_legible_of_expressionTree
    (hgrammar : ∀ root, grammar (Parse.tagBefore ++ text ++ ";") = some root →
      root.Readable (Parse.tagBefore ++ text ++ ";") Parse.tagBefore.utf8ByteSize)
    (h : expressionTree grammar text = .ok tree) :
    ∃ gs, tree = (Green.node .sourceFile gs).toTree ∧ Parse.Legible gs := by
  generalize hsource : Parse.tagBefore ++ text ++ ";" = source at *
  obtain ⟨root, x, hg, -, hx, -, hstop, rfl, -⟩ := exists_of_expressionTree_eq_ok hsource h
  have hroot := hgrammar root hg
  have hmem := mem_of_onlyStatement?_eq_some hx
  have hbase : Text.Boundary source.toList Parse.tagBefore.utf8ByteSize :=
    (wrapped_expression hsource).1 ▸ text_boundary text [';']
  obtain ⟨faults, htook⟩ := Lower.upTo_took (s := ⟨source.toList, Parse.tagBefore.utf8ByteSize⟩)
    hbase (hroot.proper.fits.children x hmem) (boundary_semicolon hsource) (x.children.length - 1)
  exact ⟨_, rfl, (accounts_upTo hsource hroot.proper hmem hstop _).legible hroot.spelled
    htook.nonempty⟩

theorem exists_legible_of_treeOf
    (hgrammar : ∀ source root, wrapped? kind text = some source → grammar source = some root →
      root.Readable source Parse.tagBefore.utf8ByteSize)
    (h : treeOf grammar kind text = .ok tree) :
    ∃ gs, tree = (Green.node .sourceFile gs).toTree ∧ Parse.Legible gs := by
  cases kind with
  | token =>
    obtain ⟨word, hword, rfl⟩ := exists_of_tokenTree_eq_ok h
    refine ⟨_, rfl, fun w hw => ?_, fun n hn => by cases hn⟩
    obtain rfl := List.mem_singleton.1 hw
    exact Token.spelled_of_classify hword
  | statement =>
    obtain ⟨p, hsnippet, -, -, rfl⟩ := exists_of_statementTree_eq_ok h
    exact Parse.exists_legible_of_after (boundary_snippet text)
      (fun root => hgrammar _ root rfl) hsnippet
  | expression => exact exists_legible_of_expressionTree (fun root => hgrammar _ root rfl) h

end Fragment

namespace Node

variable {gs : List Green} {m : Node}

/-- The nodes of a parsed tree. -/
theorem read_of_legible (h : Parse.Legible gs)
    (hm : m ∈ (Green.node .sourceFile gs).toTree.rootNode.preorder) : m.Read := by
  have hbare := Green.rootNode_bare (Green.node .sourceFile gs)
  have hgreen := Green.green_rootNode .sourceFile gs
  refine ⟨fun text htext => ?_, hbare m hm, fun hkind => ?_⟩
  · have hleaf := mem_leaves_green hbare hm htext
    rw [hgreen, Green.leaves] at hleaf
    exact h.spelled _ hleaf
  · cases htoken : m.token with
    | some text => exact .inl (hbare m hm (by simp [isToken, htoken]))
    | none =>
      have hnode := mem_nodes_green hbare hm htoken
      rw [hgreen, Green.nodes] at hnode
      rcases List.mem_cons.1 hnode with heq | hnode
      · exact absurd (hkind.symm.trans (Prod.mk.inj heq).1) (by decide)
      rcases h.literal _ hnode hkind with hnil | ⟨kind, text, hone⟩
      · exact .inl (List.map_eq_nil_iff.1 hnil)
      · obtain ⟨c, hc, hgreen⟩ := List.map_eq_singleton_iff.1 hone
        refine .inr ⟨c, hc, ?_⟩
        obtain ⟨id, ckind, token, children⟩ := c
        cases token with
        | some text => rfl
        | none => cases hgreen

end Node

namespace Tree

/-- The trees of files, of snippets and of fragments. -/
inductive Parsed : Tree → Prop
  | file {grammar : Grammar} {source : String} {p : Parse} :
    (∀ root, grammar source = some root → root.Readable source 0) →
    Parse.file grammar source = .ok p → Parsed p.tree
  | snippet {grammar : Grammar} {text : String} {p : Parse} :
    (∀ root, grammar (Parse.tagBefore ++ text) = some root →
      root.Readable (Parse.tagBefore ++ text) Parse.tagBefore.utf8ByteSize) →
    Parse.snippet grammar text = .ok p → Parsed p.tree
  | fragment {grammar : Grammar} {text : String} {kind : FragmentKind} {f : Fragment} :
    (∀ source root, Fragment.wrapped? kind text = some source → grammar source = some root →
      root.Readable source Parse.tagBefore.utf8ByteSize) →
    Fragment.parse grammar text kind = .ok f → Parsed f.tree

variable {t u : Tree} {a b : NodeId} {w : String}

theorem Parsed.exists_legible (h : t.Parsed) :
    ∃ gs, t = (Green.node .sourceFile gs).toTree ∧ Parse.Legible gs := by
  cases h with
  | file hgrammar hp => exact Parse.exists_legible_of_after (Text.boundary_zero _) hgrammar hp
  | snippet hgrammar hp =>
    exact Parse.exists_legible_of_after (Fragment.boundary_snippet _) hgrammar hp
  | @fragment grammar text kind f hgrammar hf =>
    unfold Fragment.parse at hf
    cases htree : Fragment.treeOf grammar kind text with
    | error e =>
      rw [htree] at hf
      cases hf
    | ok tree =>
      rw [htree] at hf
      dsimp only at hf
      split at hf
      next =>
        cases hf
        exact Fragment.exists_legible_of_treeOf hgrammar htree
      next => cases hf

/-- Whether a name in the place of a node names a called function, a method or a class. -/
def foldsName (t : Tree) (id : NodeId) : Bool :=
  match t.parent? id with
  | none => false
  | some p => Word.folds (t.kind p) (t.node p).operatorKind? ((t.childNodes p).head? == some id)
    (((t.solidChildren p).takeWhile (· != id)).getLast?.map t.kind)

/-- The words of a node in its place. -/
def wording (t : Tree) (id : NodeId) : List Word := (t.node id).wording (t.foldsName id)

/-- Nothing gets lost in the code of a node, in the subtree and in its place. -/
structure PlainAt (t : Tree) (w : String) (id : NodeId) : Prop where
  below : ∀ m ∈ (t.node id).preorder, m.Plain w
  place : t.kind id = .nameRef → t.foldsCase id = true → t.foldsName id = true

/-- The nodes of a parsed tree, in the subtree of any of them. -/
theorem Parsed.read (h : t.Parsed) (ha : a ∈ t.preorder t.root) :
    ∀ m ∈ (t.node a).preorder, m.Read := by
  obtain ⟨gs, rfl, hlegible⟩ := h.exists_legible
  obtain ⟨n, hn, rfl, hholds⟩ := Green.exists_mem_preorder ha
  rw [(Green.sound_toTree _).linked.node_eq hholds]
  exact fun m hm => Node.read_of_legible hlegible (Node.mem_preorder_trans hn hm)

theorem foldsCase_of_foldsName (h : t.foldsName a = true) : t.foldsCase a = true := by
  unfold foldsName at h
  unfold foldsCase
  cases hp : t.parent? a with
  | none => simp [hp] at h
  | some p =>
    rw [hp] at h
    exact Code.foldsCase_of_folds h

/-- In its place a node has the words of its code. -/
theorem wording_eq_of_plainAt (ht : t.Parsed) (ha : a ∈ t.preorder t.root) (h : t.PlainAt w a) :
    t.wording a = (t.code a).wording w := by
  rw [wording, Node.wording_eq h.below (ht.read ha), code]
  by_cases hkind : t.kind a = .nameRef
  · rw [Bool.eq_iff_iff.2 ⟨foldsCase_of_foldsName, h.place hkind⟩]
  · rw [Code.of_folds fun hnode => hkind ((kind_node t a).symm.trans hnode)]

/-- Equivalent nodes of parsed trees have the same words, one by one. -/
theorem wording_same_of_equivalentAcross (ht : t.Parsed) (hu : u.Parsed)
    (ha : a ∈ t.preorder t.root) (hb : b ∈ u.preorder u.root) (hplain : t.PlainAt w a)
    (hplain' : u.PlainAt w b) (h : t.equivalentAcross a u b = true) :
    List.Forall₂ Word.Same (t.wording a) (u.wording b) := by
  rw [wording_eq_of_plainAt ht ha hplain, wording_eq_of_plainAt hu hb hplain']
  exact Code.wording_same h

/-- The file that the wrapped text of an inclusion makes, by a word of seven letters. -/
def inclusionFile (word kind : String) : Concrete :=
  Parse.piece "program" 0 16 [Parse.piece "php_tag" 0 5 [],
    Parse.piece "expression_statement" 6 16 [
      Parse.piece kind 6 15 [Parse.piece word 6 13 [], Parse.piece "integer" 14 15 []],
      Parse.piece ";" 15 16 []]]

/-- The tree of the text without what it was wrapped in. -/
def inclusion (word : String) : Tree where
  slots := #[⟨.includeKw, some word, some 4, [], 0, 0, true⟩,
    ⟨.whitespace, some " ", some 4, [], 1, 0, true⟩, ⟨.intNumber, some "1", some 3, [], 0, 0, true⟩,
    ⟨.literal, none, some 4, [2], 2, 0, true⟩, ⟨.unaryExpr, none, some 5, [0, 1, 3], 0, 0, true⟩,
    ⟨.sourceFile, none, none, [4], 0, 0, true⟩]
  root := 5

theorem readable_inclusionFile {source word kind : String}
    (hascii : ∀ c ∈ source.toList, c.utf8Size = 1) (hlength : source.toList.length = 16)
    (hkinds : ∀ name ∈ [word, kind], name ≠ "boolean" ∧ name ≠ "null") :
    (inclusionFile word kind).Readable source Parse.tagBefore.utf8ByteSize := by
  have hfits : ∀ name {start stop : Nat}, start ≤ stop → stop ≤ 16 → ∀ {cs : List Concrete},
      (∀ c ∈ cs, c.Fits source.toList) → (Parse.piece name start stop cs).Fits source.toList :=
    fun name _ _ hle hstop _ => Parse.fits_piece hascii name hle (hlength ▸ hstop)
  have hspelled : ∀ {name : String}, name ≠ "boolean" ∧ name ≠ "null" → ∀ (start stop : Nat)
      {cs : List Concrete}, (∀ c ∈ cs, c.WellSpelled source.toList) →
      (Parse.piece name start stop cs).WellSpelled source.toList := fun hname _ _ _ =>
    .mk (fun h => absurd h hname.1) (fun h => absurd h hname.2)
  simp only [List.forall_mem_cons] at hkinds
  obtain ⟨hword, hkind, -⟩ := hkinds
  refine ⟨⟨?_, ?_, .inl rfl, ?_⟩, ?_⟩
  · have hexpression := hfits kind (by decide : 6 ≤ 15) (by decide) (List.forall_mem_cons.2
      ⟨hfits word (by decide : 6 ≤ 13) (by decide) (List.forall_mem_nil _),
        List.forall_mem_singleton.2
          (hfits "integer" (by decide : 14 ≤ 15) (by decide) (List.forall_mem_nil _))⟩)
    have hstatement := hfits "expression_statement" (by decide : 6 ≤ 16) (by decide)
      (List.forall_mem_cons.2 ⟨hexpression, List.forall_mem_singleton.2
        (hfits ";" (by decide : 15 ≤ 16) (by decide) (List.forall_mem_nil _))⟩)
    exact hfits "program" (by decide) (by decide) (List.forall_mem_cons.2
      ⟨hfits "php_tag" (by decide) (by decide) (List.forall_mem_nil _),
        List.forall_mem_singleton.2 hstatement⟩)
  · simp [inclusionFile, Parse.piece, Concrete.start, Concrete.stop]
  · simp only [inclusionFile, Parse.piece, List.forall_mem_cons]
    exact ⟨.inr (by decide), .inl (Nat.le_refl 6), by simp⟩
  · have hexpression := hspelled hkind 6 15 (List.forall_mem_cons.2
      ⟨hspelled hword 6 13 (List.forall_mem_nil _), List.forall_mem_singleton.2
        (hspelled (by decide : "integer" ≠ "boolean" ∧ "integer" ≠ "null") 14 15
          (List.forall_mem_nil _))⟩)
    have hstatement := hspelled (by decide : "expression_statement" ≠ "boolean" ∧
      "expression_statement" ≠ "null") 6 16 (List.forall_mem_cons.2 ⟨hexpression,
        List.forall_mem_singleton.2 (hspelled (by decide : ";" ≠ "boolean" ∧ ";" ≠ "null") 15 16
          (List.forall_mem_nil _))⟩)
    exact hspelled (by decide) 0 16 (List.forall_mem_cons.2 ⟨hspelled (by decide) 0 5
      (List.forall_mem_nil _), List.forall_mem_singleton.2 hstatement⟩)

theorem parsed_inclusion (text word kind source spelling : String)
    (hsource : Parse.tagBefore ++ text ++ ";" = source)
    (hascii : ∀ c ∈ source.toList, c.utf8Size = 1) (hlength : source.toList.length = 16)
    (hkinds : ∀ name ∈ [word, kind], name ≠ "boolean" ∧ name ≠ "null")
    (hparse : Fragment.parse (fun _ => some (inclusionFile word kind)) text .expression =
      .ok ⟨inclusion spelling, 4⟩) : (inclusion spelling).Parsed :=
  .fragment (fun _ root hwrapped hroot => by
    cases hwrapped
    cases hroot
    exact hsource ▸ readable_inclusionFile hascii hlength hkinds) hparse

theorem plainAt_inclusion {word : String} (hword : word.toLower = w) :
    (inclusion word).PlainAt w 4 := by
  have hnode : (inclusion word).node 4 = ⟨4, .unaryExpr, none, [⟨0, .includeKw, some word, []⟩,
      ⟨1, .whitespace, some " ", []⟩, ⟨3, .literal, none, [⟨2, .intNumber, some "1", []⟩]⟩]⟩ := rfl
  refine ⟨fun m hm => ?_, fun h => absurd h (by decide : Kind.unaryExpr ≠ .nameRef)⟩
  rw [hnode] at hm
  simp only [Node.preorder, Node.preorderAll, List.mem_cons, List.mem_append, List.not_mem_nil,
    or_false] at hm
  rcases hm with rfl | rfl | rfl | rfl | rfl
  all_goals constructor <;> simp [Node.FoldsRightly, hword]

theorem wording_same_of_include_upper :
    (inclusion "include").equivalentAcross 4 (inclusion "INCLUDE") 4 = true ∧
      List.Forall₂ Word.Same ((inclusion "include").wording 4) ((inclusion "INCLUDE").wording 4) := by
  have hlower : (inclusion "include").Parsed := parsed_inclusion "include 1" "include"
    "include_expression" "<?php include 1;" "include" (by decide)
    (by simp [Char.utf8Size]) (by decide) (by decide) (by decide +kernel)
  have hupper : (inclusion "INCLUDE").Parsed := parsed_inclusion "INCLUDE 1" "include"
    "include_expression" "<?php INCLUDE 1;" "INCLUDE" (by decide)
    (by simp [Char.utf8Size]) (by decide) (by decide) (by decide +kernel)
  have hsame : (inclusion "include").equivalentAcross 4 (inclusion "INCLUDE") 4 = true := by
    decide +kernel
  have hword : "include".toLower = "include" := by decide +kernel
  have hword' : "INCLUDE".toLower = "include" := by decide +kernel
  exact ⟨hsame, wording_same_of_equivalentAcross hlower hupper (by decide) (by decide)
    (plainAt_inclusion hword) (plainAt_inclusion hword') hsame⟩

/-- What is included once for all and what is required count as the same. -/
theorem exists_equivalentAcross_not_same :
    ∃ t u a b, Parsed t ∧ Parsed u ∧ a ∈ t.preorder t.root ∧ b ∈ u.preorder u.root ∧
      t.equivalentAcross a u b = true ∧ ¬ List.Forall₂ Word.Same (t.wording a) (u.wording b) := by
  have hinclude : (inclusion "include").Parsed := parsed_inclusion "include 1" "include"
    "include_expression" "<?php include 1;" "include" (by decide)
    (by simp [Char.utf8Size]) (by decide) (by decide) (by decide +kernel)
  have hrequire : (inclusion "require").Parsed := parsed_inclusion "require 1" "require"
    "require_expression" "<?php require 1;" "require" (by decide)
    (by simp [Char.utf8Size]) (by decide) (by decide) (by decide +kernel)
  refine ⟨_, _, 4, 4, hinclude, hrequire, by decide, by decide, by decide +kernel, ?_⟩
  decide +kernel

end Tree

end PhpLint
