import PhpLint.Proofs.Concrete.Chains
import PhpLint.Proofs.Parse.Places
import PhpLint.Proofs.Related
import PhpLint.Proofs.Tree.Kinded
import PhpLint.Tree.Statement

/-! Chains of `if`s in a parse. The node of an `if` has all the conditions of its chain, its own and
those of its `elseif`s and `else if`s, in the order of the text. The tree is read side by side with
its outline, in which this has been seen. -/

namespace PhpLint

namespace Tree

variable {t : Tree} {top o e : Outline} {id : NodeId} {n : Node} {q : List Nat} {kind : Kind}
  {chain : Chain}

/-- The node is made of the piece at a site of the concrete tree. -/
def MadeOf (t : Tree) (top : Outline) (id : NodeId) (site : List Nat) : Prop :=
  ∃ o, t.Paired top id o ∧ o.site = some site

/-- The tree is that of an outline: nodes that go together are of one kind and have equally many
nodes below them. -/
structure Follows (t : Tree) (top : Outline) : Prop where
  linked : t.Linked
  kinded : t.Kinded
  lt_size : ∀ {id o}, t.Paired top id o → id < t.size
  kind_eq : ∀ {id o}, t.Paired top id o → t.kind id = o.kind
  length_eq : ∀ {id o}, t.Paired top id o → (t.childNodes id).length = o.children.length

/-- A subtree goes together with an outline. -/
structure Mirrors (t : Tree) (top : Outline) (n : Node) (o : Outline) : Prop where
  paired : t.Paired top n.id o
  node_eq : t.node n.id = n

theorem Paired.mirrors (h : t.Paired top id o) : t.Mirrors top (t.node id) o := by
  refine ⟨?_, ?_⟩
  · rwa [id_node]
  · rw [id_node]

namespace Follows

variable (h : t.Follows top)

include h

theorem exists_child (hid : t.Paired top id o) (he : e ∈ o.children) : ∃ d, t.Paired top d e := by
  obtain ⟨k, hk⟩ := List.getElem?_of_mem he
  have hlt := (List.getElem?_eq_some_iff.1 hk).1
  rw [← h.length_eq hid] at hlt
  exact ⟨_, .child hid (List.getElem?_eq_getElem hlt) hk⟩

/-- Every outline below the topmost is that of a node. -/
theorem exists_paired_of_among (hid : t.Paired top id e) (ho : o.Among e.children) :
    ∃ d, t.Paired top d o := by
  generalize hos : e.children = os at ho
  induction ho generalizing id e with
  | here ho => exact h.exists_child hid (hos ▸ ho)
  | deeper hp _ ih =>
    obtain ⟨d, hd⟩ := h.exists_child hid (hos ▸ hp)
    exact ih hd rfl

theorem kind_of_mirrors (hn : t.Mirrors top n o) : n.kind = o.kind := by
  rw [← hn.node_eq, kind_node]
  exact h.kind_eq hn.paired

theorem childNodes (hn : t.Mirrors top n o) :
    List.Forall₂ (t.Mirrors top) n.childNodes o.children := by
  have hholds := h.linked.holds_node (h.lt_size hn.paired)
  rw [hn.node_eq] at hholds
  have hids := childNodes_of_holds hholds
  have hlength := h.length_eq hn.paired
  rw [hids, List.length_map] at hlength
  refine List.forall₂_iff_get.2 ⟨hlength, fun k hk ho => ⟨.child (k := k) hn.paired ?_ ?_, ?_⟩⟩
  · rw [hids, List.getElem?_map, List.getElem?_eq_getElem hk]
    rfl
  · exact List.getElem?_eq_getElem ho
  · exact h.linked.node_eq (hholds.of_mem (List.mem_filter.1 (List.getElem_mem hk)).1)

/-- Among all children of a node those of a node kind are the ones among its outlines. -/
theorem childrenOfKind (hn : t.Mirrors top n o) (hkind : kind.isToken = false) :
    List.Forall₂ (t.Mirrors top) (n.childrenOfKind kind) (o.children.filter (·.kind == kind)) := by
  have hholds := h.linked.holds_node (h.lt_size hn.paired)
  rw [hn.node_eq] at hholds
  have hnodes : n.childrenOfKind kind = n.childNodes.filter (·.kind == kind) := by
    rw [Node.childrenOfKind, Node.childNodes, List.filter_filter]
    refine List.filter_congr fun c hc => ?_
    have hc := hholds.of_mem hc
    rw [← isToken_of_holds hc, h.kinded, kind_of_holds hc]
    cases hck : c.kind == kind with
    | false => rfl
    | true =>
      rw [eq_of_beq hck, hkind]
      rfl
  rw [hnodes]
  refine (h.childNodes hn).filter_of_eq fun hc => ?_
  rw [h.kind_of_mirrors hc]

/-- The condition of an `if` or `elseif` is its first node. -/
theorem condition (hn : t.Mirrors top n o) (hkind : o.kind ∈ [Kind.ifStmt, .elseIfClause])
    (hq : o.condition? = some q) : ∃ c, n.condition? = some c ∧ t.MadeOf top c.id q := by
  obtain ⟨e, he, hsite⟩ := Option.bind_eq_some_iff.1 hq
  rcases (h.childNodes hn).head?.eq_or with ⟨-, hnone⟩ | ⟨c, e', hc, he', hmirrors⟩
  · rw [hnone] at he
    cases he
  · obtain rfl := Option.some.inj (he'.symm.trans he)
    refine ⟨c, ?_, e', hmirrors.paired, hsite⟩
    rw [List.head?_eq_getElem?] at hc
    rw [← h.kind_of_mirrors hn] at hkind
    rw [Node.condition?]
    rcases List.mem_pair.1 hkind with hkind | hkind <;> rw [hkind] <;> exact hc

/-- The conditions of an `if` and of its `elseif`s are those of the chain. -/
theorem conditions (hn : t.Mirrors top n o) (ho : o.Carries chain) :
    List.Forall₂ (fun n q => ∃ c, n.condition? = some c ∧ t.MadeOf top c.id q) (n :: n.elseIfs)
      chain.conditions := by
  have hclauses : List.Forall₂
      (fun n e => t.Mirrors top n e ∧ e.kind ∈ [Kind.ifStmt, .elseIfClause]) (n :: n.elseIfs)
      (o :: o.children.filter (·.kind == .elseIfClause)) := by
    refine .cons ⟨hn, by simp [ho.kind_eq]⟩ ?_
    refine (h.childrenOfKind hn rfl).and_mem.imp fun m e hm => ⟨hm.1, ?_⟩
    rw [eq_of_beq (List.mem_filter.1 hm.2.2).2]
    simp
  exact hclauses.trans_of ho.conditions fun hm hq => h.condition hm.1 hm.2 hq

end Follows

end Tree

namespace Lower

variable {s : Source} {x : Concrete}

/-- An expression in parentheses makes one node. -/
theorem sole_of_expression (hsolid : Solid s x) (herror : x.head.error = false)
    (hkind : x.kind ∈ Concrete.expressionKinds) : Sole s x := fun late site place hplace => by
  obtain ⟨treatment, hof, hnode⟩ := Treatment.exists_of_expression s.text
    (List.mem_pair.2 (.inr hplace)) hkind
  rw [hsolid.outline_eq herror hof]
  cases treatment with
  | wrapped | composite | keywordCall => exact ⟨_, rfl, rfl⟩
  | _ => exact hnode.elim

end Lower

/-- The root of a parse is made of no piece. -/
theorem Tree.Paired.among_of_site {s : Source} {root : Concrete} {t : Tree} {id : NodeId}
    {o : Outline} {q : List Nat} (h : t.Paired (Lower.rootOutline s root) id o)
    (hsite : o.site = some q) : o.Among (Lower.rootOutline s root).children :=
  h.among.resolve_left fun hroot => by
    rw [hroot.2] at hsite
    cases hsite

namespace Parse

variable {grammar : Grammar} {source : String} {base : Nat} {root x : Concrete} {p : Parse}
  {site : List Nat} {chain : Chain}

theorem follows_of_after (hg : grammar source = some root)
    (hp : after grammar source base = .ok p) :
    p.tree.Follows (Lower.rootOutline ⟨source.toList, base⟩ root) := by
  have hmade := Tree.Made.parse hp
  have hlinked := hmade.sound_and_bare.1.linked
  have hstands := fun {id o} (h : p.tree.Paired _ id o) =>
    Lower.Stands.of_paired hlinked hmade.sound_and_bare.2
      (stands_root False.elim hg False.elim hp) h
  exact ⟨hlinked, hmade.kinded, fun h => (hstands h).lt_size, fun h => (hstands h).kind_eq,
    fun h => (hstands h).length_childNodes hlinked⟩

/-- Only the root, `else if`s and the elements of destructuring targets are not made of one piece. -/
theorem exists_madeOf (hg : grammar source = some root) (hp : after grammar source base = .ok p)
    {id : NodeId} (hid : id ∈ p.tree.descendants p.tree.root)
    (hkind : p.tree.kind id ∉ [Kind.sourceFile, .elseIfClause, .arrayElement]) :
    ∃ q, p.tree.MadeOf (Lower.rootOutline ⟨source.toList, base⟩ root) id q := by
  have hfollows := follows_of_after hg hp
  obtain ⟨hsound, hbare⟩ := (Tree.Made.parse hp).sound_and_bare
  obtain ⟨hmem, htoken⟩ := List.mem_filter.1 hid
  obtain ⟨o, ho⟩ := Tree.exists_paired hsound hbare (fun _ _ h => hfollows.length_eq h)
    ((hsound.linked.mem_preorder hsound.root_lt_size).1 hmem) (by simpa using htoken)
  rw [hfollows.kind_eq ho, List.mem_cons, not_or] at hkind
  cases hsite : o.site with
  | some q => exact ⟨q, o, ho, hsite⟩
  | none =>
    rcases ho.among with ⟨-, rfl⟩ | hamong
    · exact absurd rfl hkind.1
    · exact absurd ((Lower.among_rootOutline hamong).1 hsite).kind_mem hkind.2

/-- All alternatives of an `if` are alternatives of its one node, whether they are its own or those
of an `if` that continues its `else`. The conditions of this node and of its `elseif`s and
`else if`s are those of the chain, in the order of the text, and its `else` is the one in which the
chain ends. No node is made of an `if` that continues an `else`, and every node of an `if` is made
of some piece. -/
theorem flattens_chain (hg : grammar source = some root) (hp : after grammar source base = .ok p)
    (hx : root.at? site = some x) (hchain : Lower.HasChain ⟨source.toList, base⟩ site x chain) :
    let s : Source := ⟨source.toList, base⟩
    let t := p.tree
    let top := Lower.rootOutline s root
    (Lower.Met s root site x → Lower.Solid s x → ∃ id, t.MadeOf top id site) ∧
      (∀ id, t.MadeOf top id site → (t.node id).kind = .ifStmt ∧
        List.Forall₂ (fun n q => ∃ c, n.condition? = some c ∧ t.MadeOf top c.id q)
          (t.node id :: (t.node id).elseIfs) chain.conditions ∧
        List.Forall₂ (fun n q => t.MadeOf top n.id q) ((t.node id).childrenOfKind .elseClause)
          chain.elses) ∧
      (∀ q ∈ chain.continued, ∀ id, ¬ t.MadeOf top id q) ∧
      ∀ id ∈ t.descendants t.root, t.kind id = .ifStmt → ∃ q, t.MadeOf top id q := by
  have hfollows := follows_of_after hg hp
  refine ⟨fun hmet hsolid => ?_, fun id hid => ?_, fun q hq id hid => ?_, fun id hid hkind => ?_⟩
  · obtain ⟨late, place, hmem⟩ := hmet.exists_among
    rw [hchain.outline_eq hsolid] at hmem
    obtain ⟨d, hd⟩ := hfollows.exists_paired_of_among .root
      (hmem _ (.here List.mem_cons_self))
    exact ⟨d, _, hd, rfl⟩
  · obtain ⟨o, ho, hsite⟩ := hid
    obtain ⟨y, late, place, hy, hmem⟩ := (Lower.among_rootOutline (ho.among_of_site hsite)).2.2
      site hsite
    obtain rfl := Option.some.inj (hy.symm.trans hx)
    have hcarries := hchain.carries hmem
    have hmirrors := ho.mirrors
    refine ⟨(hfollows.kind_of_mirrors hmirrors).trans hcarries.kind_eq, ?_, ?_⟩
    · exact hfollows.conditions hmirrors hcarries
    · exact (hfollows.childrenOfKind hmirrors rfl).trans_of hcarries.elses
        fun hn hq => ⟨_, hn.paired, hq⟩
  · obtain ⟨o, ho, hsite⟩ := hid
    exact Lower.site_ne_of_continues (hchain.continues hx q hq) (ho.among_of_site hsite) hsite
  · exact exists_madeOf hg hp hid (by rw [hkind]; decide)

/-- A word or sign. -/
def word (kind : String) (start stop : Nat) : Concrete :=
  ⟨⟨kind, false, false, false, false, start, stop, none⟩, []⟩

/-- A digit in parentheses. -/
def digit (start : Nat) : Concrete :=
  piece "parenthesized_expression" start (start + 3) [word "(" start (start + 1),
    piece "integer" (start + 1) (start + 2) [], word ")" (start + 2) (start + 3)]

def emptyStatement (start : Nat) : Concrete :=
  piece "empty_statement" start (start + 1) [word ";" start (start + 1)]

def elseBranch : Concrete := piece "else_clause" 33 38 [word "else" 33 37, emptyStatement 37]

def innerIf : Concrete :=
  piece "if_statement" 27 38 [word "if" 27 29, digit 29, emptyStatement 32, elseBranch]

def elseIfBranch : Concrete := piece "else_clause" 22 38 [word "else" 22 26, innerIf]

def elseifBranch : Concrete :=
  piece "else_if_clause" 12 22 [word "elseif" 12 18, digit 18, emptyStatement 21]

def outerIf : Concrete :=
  piece "if_statement" 6 38 [word "if" 6 8, digit 8, emptyStatement 11, elseifBranch, elseIfBranch]

/-- An `if` with an `elseif`, an `else if` and, belonging to the latter, an `else`. -/
def fourBranches : Concrete := piece "program" 0 38 [piece "php_tag" 0 5 [], outerIf]

section

variable {s : Source} {rest : List Concrete} {kind : String} {start stop : Nat}

theorem elseless_word (start stop : Nat) (hkind : kind ∉ ["else_if_clause", "else_clause"]) :
    (word kind start stop).Elseless := by
  refine .apart ?_ nofun
  simpa [Lower.isAlternative, word] using hkind

theorem elseless_emptyStatement (start : Nat) : (emptyStatement start).Elseless :=
  .apart rfl (List.forall_mem_singleton.2 (elseless_word _ _ (by decide)))

theorem elseless_digit (start : Nat) : (digit start).Elseless := by
  refine .apart rfl (List.forall_mem_cons.2 ⟨elseless_word _ _ (by decide),
    List.forall_mem_cons.2 ⟨?_, ?_⟩⟩)
  · exact .apart rfl nofun
  · exact List.forall_mem_singleton.2 (elseless_word _ _ (by decide))

theorem solid_piece {children : List Concrete} (h : start < stop) (hbase : s.base < stop) :
    Lower.Solid s (piece kind start stop children) := ⟨rfl, Nat.ne_of_lt h, hbase⟩

theorem silent_word (hkind : kind ∈ Treatment.conditionWords) :
    Lower.Silent s (word kind start stop) := Lower.silent_of_word rfl rfl hkind

/-- The digit behind an `if` or `elseif` is its condition. -/
theorem guarded_digit (hkind : kind ∈ ["if", "elseif"]) (hbase : s.base < start) (site : List Nat) :
    Lower.Guarded s site (word kind stop start :: digit start :: rest) (site ++ [1, 1]) := by
  have hword : Lower.Silent s (word kind stop start) ∧
      Lower.isAlternative (word kind stop start) = false := by
    rcases List.mem_pair.1 hkind with rfl | rfl
    · exact ⟨silent_word (by decide), rfl⟩
    · exact ⟨silent_word (by decide), rfl⟩
  refine @Lower.Guarded.mk s site [_] rest [_] [_] _ _ (List.forall_mem_singleton.2 hword) rfl
    (solid_piece (by omega) (by omega)) rfl rfl
    (List.forall_mem_singleton.2 (silent_word (by decide))) ?_
  have hinteger : "integer" ∈ Concrete.expressionKinds := by decide
  exact Lower.sole_of_expression (solid_piece (by omega) (by omega)) rfl hinteger

end

theorem hasChain_outerIf {s : Source} (hbase : s.base = 0) : Lower.HasChain s [1] outerIf
    ⟨[[1, 1, 1], [1, 3, 1, 1], [1, 4, 1, 1, 1]], [[1, 4, 1]], [[1, 4, 1, 3]]⟩ := by
  have hplain : ∀ body x, elseBranch.bodyIndex? = some body → elseBranch.children[body]? = some x →
      x.kind ≠ "if_statement" := fun body x hbody hx => by
    obtain rfl : 1 = body := Option.some.inj hbody
    cases hx
    decide
  have helse : Lower.Alternatives s [1, 4, 1] 3 [elseBranch] _ :=
    .else rfl (solid_piece (by omega) (by omega)) rfl hplain .nil
  have hinner := Lower.Alternatives.aside (elseless_word 27 29 (by decide : "if" ∉ _))
    (.aside (elseless_digit 29) (.aside (elseless_emptyStatement 32) helse))
  have hbody : elseIfBranch.bodyIndex? = some 1 := rfl
  have helseIf : Lower.Alternatives s [1] 4 [elseIfBranch] _ :=
    .elseIf rfl (solid_piece (by omega) (by omega)) rfl hbody rfl rfl
      (List.forall_mem_singleton.2 (silent_word (by decide)))
      (guarded_digit (by decide) (by omega) _) hinner .nil
  have helseif : Lower.Alternatives s [1] 3 [elseifBranch, elseIfBranch] _ :=
    .elseif rfl (solid_piece (by omega) (by omega)) rfl (guarded_digit (by decide) (by omega) _)
      helseIf
  have houter := Lower.Alternatives.aside (elseless_word 6 8 (by decide : "if" ∉ _))
    (.aside (elseless_digit 8) (.aside (elseless_emptyStatement 11) helseif))
  have h : Lower.HasChain s [1] outerIf _ :=
    .mk rfl rfl (guarded_digit (by decide) (by omega) [1]) houter
  exact h

/-- The node of the `if` has three conditions, and the `else` of the `if` in its own `else`. Of the
latter `if` there is no node. -/
theorem flattens_chain_fourBranches :
    ∃ p, after (fun _ => some fourBranches) "<?php if(1);elseif(2);else if(3);else;" 0 = .ok p ∧
      let top := Lower.rootOutline ⟨"<?php if(1);elseif(2);else if(3);else;".toList, 0⟩ fourBranches
      ∃ id, p.tree.MadeOf top id [1] ∧
        List.Forall₂ (fun n q => ∃ c, n.condition? = some c ∧ p.tree.MadeOf top c.id q)
          (p.tree.node id :: (p.tree.node id).elseIfs) [[1, 1, 1], [1, 3, 1, 1], [1, 4, 1, 1, 1]] ∧
        List.Forall₂ (fun n q => p.tree.MadeOf top n.id q)
          ((p.tree.node id).childrenOfKind .elseClause) [[1, 4, 1, 3]] ∧
        ∀ d, ¬ p.tree.MadeOf top d [1, 4, 1] := by
  have hok : (after (fun _ => some fourBranches) "<?php if(1);elseif(2);else if(3);else;" 0).isOk =
      true := by decide +kernel
  have houter : fourBranches.at? [1] = some outerIf := rfl
  cases hp : after (fun _ => some fourBranches) "<?php if(1);elseif(2);else if(3);else;" 0 with
  | error fault =>
    rw [hp] at hok
    cases hok
  | ok p =>
    obtain ⟨hexists, hall, hcontinued, -⟩ := flattens_chain rfl hp houter (hasChain_outerIf rfl)
    obtain ⟨id, hid⟩ := hexists (.top rfl rfl) (solid_piece (by decide) (by decide))
    obtain ⟨-, hconditions, helses⟩ := hall id hid
    exact ⟨p, rfl, id, hid, hconditions, helses, hcontinued _ (List.mem_singleton.2 rfl)⟩

end Parse

end PhpLint
