import PhpLint.Proofs.Fix.Planned
import PhpLint.Proofs.Parse.Lossless
import PhpLint.Proofs.ReplaceCall.Feeding
import PhpLint.Proofs.Tree.Reading

/-! A merge that is brought to a tree that was edited since it was offered. Its handles are those of
the two calls. Where these are good, the calls are what they were and stand where they stood; that
one statement still follows the other, and that it is still one variable, is not looked at. -/

namespace PhpLint

namespace Tree

variable {t u : Tree} {p x y : NodeId}

namespace Kept

theorem childNodes_eq (h : Kept t u) (ht : t.Linked) (hp : p < t.size)
    (hv : u.version p = t.version p) : u.childNodes p = t.childNodes p := by
  rw [childNodes, childNodes, h.children_eq p hp hv]
  refine List.filter_congr fun c hc => ?_
  rw [isToken, isToken, h.tokenText?_eq c (ht.lt_size_of_mem hc)]

/-- How a name is read depends on its place, so it takes the parent too to be as it was. -/
theorem code_eq (h : Kept t u) (ht : t.Linked) (hu : u.Linked) (hunder : t.Under x p)
    (hv : u.version p = t.version p) : u.code x = t.code x := by
  have hp : p < t.size := ht.parent_lt_size hunder
  have hvx : u.version x = t.version x := h.version_eq hunder hp hv
  have hparent : u.parent? x = t.parent? x := h.parent?_eq x hunder.lt_size hvx x (.refl t x)
  have hfolds : u.foldsCase x = t.foldsCase x := by
    rw [Under] at hunder
    simp only [foldsCase, hparent, hunder, h.kind_eq p hp, h.node_eq ht hu hp hv,
      h.childNodes_eq ht hp hv]
  rw [code, code, hfolds, h.node_eq ht hu hunder.lt_size hvx]

end Kept

theorem Within.of_parent_of_kind (h : t.Within x y) (hp : t.Under x p)
    (hkind : t.kind x ≠ t.kind y) : t.Within p y :=
  h.of_parent hp fun he => hkind (congrArg t.kind he)

/-- Around what stands in parentheses there are parentheses, and then what is around these. -/
theorem Linked.within_of_unparenthesized (h : t.Linked) {a : Node} (ha : Slots.Holds t.slots a)
    (hx : t.Within a.unparenthesized.id x) :
    t.Within a.id x ∨ t.kind x = a.unparenthesized.kind ∨ t.kind x = .parenExpr := by
  fun_induction Node.unparenthesized a with
  | case1 a hkind inner hinner ih =>
    have hmem := Node.mem_children_of_operand? hinner
    have hholds := ha.of_mem hmem
    have hinnerKind : t.kind inner.id = inner.kind := hholds.kind_eq
    obtain hw | hkinds := ih hholds hx
    · by_cases he : inner.id = x
      · right
        rw [← he, hinnerKind]
        by_cases hparen : inner.kind = .parenExpr
        · exact .inr hparen
        · rw [Node.unparenthesized_of_kind_ne hparen]
          exact .inl rfl
      · exact .inl (hw.of_parent (h.under_of_mem ha hmem) he)
    · exact .inr hkinds
  | case2 a hkind hnone => exact .inl hx
  | case3 a hkind => exact .inl hx

end Tree

namespace CascadeReplace

open ReplaceCall

variable {t u : Tree} {node x : NodeId}

theorem statement?_eq_of_kept (h : Tree.Kept t u) (ht : t.Linked) (hnode : node < t.size)
    (hparent : u.parent? node = t.parent? node) : statement? u node = statement? t node := by
  rw [statement?, statement?, h.kind_eq node hnode, hparent]
  cases hp : t.parent? node with
  | none => rfl
  | some p => simp [Option.filter, h.kind_eq p (ht.parent_lt_size hp)]

namespace Cascade

theorem laterCall_within (c : Cascade t node) (ht : t.Linked) : t.Within c.laterCall.id node :=
  ht.within_of_mem_preorder_node (mem_preorder_of_valueOf? c.laterCall_eq)

theorem within_statement (c : Cascade t node) : t.Within node c.statement := by
  have hstatement := c.statement_eq
  rw [statement?] at hstatement
  split at hstatement
  · exact Option.some.inj hstatement ▸ .refl t node
  · exact .of_under (Option.filter_eq_some_iff.1 hstatement).1

theorem assignment_under (c : Cascade t node) (ht : t.Linked) :
    t.Under c.assignment.id c.previous := by
  have hmem := List.mem_of_mem_head? c.assignment_eq
  have hunder := ht.under_of_mem (ht.holds_node (c.previous_lt_size ht)) (List.mem_filter.1 hmem).1
  rwa [Tree.id_node] at hunder

theorem earlierCall_within (c : Cascade t node) (ht : t.Linked) :
    t.Within c.earlierCall.id c.previous :=
  (ht.within_of_mem_preorder (c.assignment_holds ht)
    (mem_preorder_of_valueOf? c.earlierCall_eq)).trans (.of_under (c.assignment_under ht))

theorem carrier_under (c : Cascade t node) (ht : t.Linked) :
    t.Under c.carrier.id c.assignment.id :=
  ht.under_of_mem (c.assignment_holds ht)
    (List.mem_filter.1 (mem_childNodes_of_target? c.carrier_eq)).1

/-- What the later call hands on is handed on below `node`, as a target or as an argument. -/
theorem exists_storage_under (c : Cascade t node) (ht : t.Linked) :
    ∃ p, t.Under c.storage.id p ∧ t.Within p node := by
  have hholds := ht.holds_node c.lt_size
  have hstorage := c.storage_eq
  split at hstorage
  case isTrue =>
    have hunder := ht.under_of_mem hholds
      (List.mem_filter.1 (mem_childNodes_of_target? hstorage)).1
    rw [Tree.id_node] at hunder
    exact ⟨node, hunder, .refl t node⟩
  case isFalse =>
    have hcall := hholds.of_mem_preorder (mem_preorder_of_valueOf? c.laterCall_eq)
    have hsubject : c.later.subject ∈ c.laterCall.arguments := by
      simp [(arguments_of_ofCall? c.later_eq).2]
    obtain ⟨list, hlist, hmem⟩ := Node.exists_child_of_mem_arguments hsubject
    rw [← Option.some.inj hstorage]
    exact ⟨list.id, ht.under_of_mem (hcall.of_mem hlist) hmem,
      (Tree.Within.of_under (ht.under_of_mem hcall hlist)).trans (c.laterCall_within ht)⟩

/-- Between the earlier call and its statement there is no other statement. -/
theorem previous_within (c : Cascade t node) (ht : t.Linked)
    (hx : t.Within c.earlierCall.id x) (hkind : t.kind x = .exprStmt) :
    t.Within c.previous x := by
  obtain ⟨-, value, hvalue, hcall⟩ := exists_value_of_valueOf? c.earlierCall_eq c.assignment_kind
  have hcallKind : c.earlierCall.kind = .callExpr := (arguments_of_ofCall? c.earlier_eq).1
  rw [Node.value?, if_pos c.assignment_kind] at hvalue
  have hmem := (List.mem_filter.1 (List.mem_of_getElem? hvalue)).1
  have hholds := (c.assignment_holds ht).of_mem hmem
  have hvalueKind : t.kind value.id = value.kind := hholds.kind_eq
  have hassignmentKind : t.kind c.assignment.id = c.assignment.kind :=
    (c.assignment_holds ht).kind_eq
  have hnot : value.kind ≠ .exprStmt := by
    intro hstatement
    have hself : value.unparenthesized = value :=
      Node.unparenthesized_of_kind_ne (by simp [hstatement])
    rw [← hcall, hself, hstatement] at hcallKind
    cases hcallKind
  have hwithin : t.Within value.id x := by
    rw [← hcall] at hx hcallKind
    simpa [hkind, hcallKind] using ht.within_of_unparenthesized hholds hx
  have habove : t.Within c.assignment.id x :=
    hwithin.of_parent_of_kind (ht.under_of_mem (c.assignment_holds ht) hmem)
      (by rwa [hvalueKind, hkind])
  exact habove.of_parent_of_kind (c.assignment_under ht)
    (by rw [hassignmentKind, c.assignment_kind, hkind]; decide)

theorem statement_eq_of_inPlace (c : Cascade t node) (c' : Cascade u node) (h : Tree.Kept t u)
    (ht : t.Linked) (hlater : Tree.InPlace t u c.laterCall.id) : c'.statement = c.statement := by
  have hparent := hlater.parent?_eq node (c.laterCall_within ht)
  have hstatement := c'.statement_eq
  rw [statement?_eq_of_kept h ht c.lt_size hparent, c.statement_eq] at hstatement
  exact (Option.some.inj hstatement).symm

/-- The earlier call, where it is in place, has one statement around it in both trees. -/
theorem previous_eq_of_inPlace (c : Cascade t node) (c' : Cascade u node) (h : Tree.Kept t u)
    (ht : t.Linked) (hu : u.Linked) (hearlier : Tree.InPlace t u c.earlierCall.id)
    (hcall : c'.earlierCall.id = c.earlierCall.id) : c'.previous = c.previous := by
  have hlt : c.earlierCall.id < t.size := (c.earlierCall_within ht).lt_size (c.previous_lt_size ht)
  have hbefore := c.earlierCall_within ht
  have hafter : u.Within c.earlierCall.id c'.previous := hcall ▸ c'.earlierCall_within hu
  have hafter' : t.Within c.earlierCall.id c'.previous :=
    (hearlier.within_iff (.refl t _)).1 hafter
  have hkind : t.kind c'.previous = .exprStmt :=
    (h.kind_eq _ (ht.lt_size_of_within hafter' hlt)).symm.trans c'.previous_kind
  have hkind' : u.kind c.previous = .exprStmt :=
    (h.kind_eq _ (c.previous_lt_size ht)).trans c.previous_kind
  refine ht.within_antisymm ?_ (c.previous_within ht hafter' hkind)
  refine (hearlier.within_iff hafter').1 (c'.previous_within hu ?_ hkind')
  rw [hcall]
  exact (hearlier.within_iff (.refl t _)).2 hbefore

theorem storage_same_of_kept (c : Cascade t node) (h : Tree.Kept t u) (ht : t.Linked)
    (hu : u.Linked) (hnode : u.version node = t.version node)
    (hprevious : u.version c.previous = t.version c.previous) :
    u.equivalent c.carrier.id c.storage.id = true := by
  obtain ⟨p, hunder, hwithin⟩ := c.exists_storage_under ht
  have hstorage := h.code_eq ht hu hunder (h.version_eq_of_within ht hnode hwithin)
  have hcarrier := h.code_eq ht hu (c.carrier_under ht)
    (h.version_eq_of_within ht hprevious (.of_under (c.assignment_under ht)))
  rw [Tree.equivalent, Tree.equivalentAcross, hstorage, hcarrier]
  exact c.storage_same

/-- Two calls in a row are so in a later tree where what they are part of is as it was and the
statements still follow each other. -/
def carry (c : Cascade t node) (h : Tree.Kept t u) (ht : t.Linked) (hu : u.Linked)
    (hnode : u.version node = t.version node)
    (hprevious : u.version c.previous = t.version c.previous)
    (hnext : u.previousStatement? c.statement = some c.previous) : Cascade u node :=
  have hnodeEq : u.node node = t.node node := h.node_eq ht hu c.lt_size hnode
  have hpreviousLt := c.previous_lt_size ht
  { c with
    statement_eq := (statement?_eq_of_kept h ht c.lt_size
      (h.parent?_eq node c.lt_size hnode node (.refl t node))).trans c.statement_eq
    previous_eq := hnext
    previous_kind := (h.kind_eq _ hpreviousLt).trans c.previous_kind
    assignment_eq := by
      rw [h.node_eq ht hu hpreviousLt hprevious]
      exact c.assignment_eq
    laterCall_eq := hnodeEq ▸ c.laterCall_eq
    storage_eq := by
      rw [h.kind_eq node c.lt_size, hnodeEq]
      exact c.storage_eq
    storage_same := c.storage_same_of_kept h ht hu hnode hprevious }

end Cascade

/-- The later of two calls is reported with the offer to merge the earlier one into it. -/
def Pairs (ctx : RuleContext) (node patch eliminate : NodeId) : Prop :=
  ∃ f ∈ rule.check ctx node,
    f.message = messageCascading ∧ f.fix = some (mergeFix ctx patch eliminate)

theorem pairs_iff {ctx : RuleContext} {patch eliminate : NodeId} :
    Pairs ctx node patch eliminate ↔ ∃ c : Cascade ctx.tree node,
      c.laterCall.id = patch ∧ c.earlierCall.id = eliminate := by
  constructor
  · rintro ⟨f, hf, hmessage, hfix⟩
    obtain ⟨c, rfl⟩ := cascading_mem_check_iff.1 ⟨hf, hmessage⟩
    simp [Cascade.finding, Finding.withFix, mergeFix, Tree.handle] at hfix
    exact ⟨c, hfix.1.1, hfix.2.1⟩
  · rintro ⟨c, rfl, rfl⟩
    exact ⟨c.finding, (cascading_mem_check_iff.2 ⟨c, rfl⟩).1, rfl, rfl⟩

/-- A merge that is brought to a later tree is carried out only where both calls are what they were
and stand where they stood, and else it is refused. Carried out, it may come too late all the same:
the calls are still paired only where the one statement still follows the other, and that is enough
where the later assignment or return and the earlier statement are as they were. -/
theorem merge_after_plans {admits : Tree → NodeId → Prop} {grammar : Grammar}
    {ctx now : RuleContext} {patch eliminate : NodeId} (hrun : Tree.Run admits ctx.tree)
    (hpairs : Pairs ctx node patch eliminate)
    (hleads : EditPlan.Leads grammar ctx.tree now.tree) :
    ∃ statement previous, statement? ctx.tree node = some statement ∧
      ctx.tree.previousStatement? statement = some previous ∧
      ctx.tree.Within patch statement ∧ ctx.tree.Within eliminate previous ∧
      (∀ result, (mergeFix ctx patch eliminate).apply grammar now.tree = .ok result →
        Tree.InPlace ctx.tree now.tree patch ∧ Tree.InPlace ctx.tree now.tree eliminate ∧
        (Pairs now node patch eliminate →
          now.tree.previousStatement? statement = some previous) ∧
        (now.tree.version node = ctx.tree.version node →
          now.tree.version previous = ctx.tree.version previous →
          now.tree.previousStatement? statement = some previous →
          Pairs now node patch eliminate)) ∧
      ∀ h ∈ (mergeFix ctx patch eliminate).handles, now.tree.isValid h = false →
        ∃ h ∈ (mergeFix ctx patch eliminate).handles, now.tree.isValid h = false ∧
          (mergeFix ctx patch eliminate).apply grammar now.tree = .error (.invalidated h.id) := by
  obtain ⟨c, rfl, rfl⟩ := pairs_iff.1 hpairs
  have ht := hrun.sound.linked
  obtain ⟨hsound, hkept⟩ := hleads.later.sound_and_kept hrun.sound
  have hu := hsound.linked
  refine ⟨c.statement, c.previous, c.statement_eq, c.previous_eq,
    (c.laterCall_within ht).trans c.within_statement, c.earlierCall_within ht,
    fun result happly => ?_, fun h hh hstale => Fix.apply_of_stale grammar hh hstale⟩
  have hlater : Tree.InPlace ctx.tree now.tree c.laterCall.id :=
    hkept.inPlace ht hu (Fix.isValid_of_apply happly List.mem_cons_self)
  have hearlier : Tree.InPlace ctx.tree now.tree c.earlierCall.id :=
    hkept.inPlace ht hu (Fix.isValid_of_apply happly (List.mem_cons_of_mem _ List.mem_cons_self))
  refine ⟨hlater, hearlier, fun hstill => ?_, fun hnode hprevious hnext => ?_⟩
  · obtain ⟨c', -, hcall⟩ := pairs_iff.1 hstill
    rw [← c.statement_eq_of_inPlace c' hkept ht hlater,
      ← c.previous_eq_of_inPlace c' hkept ht hu hearlier hcall]
    exact c'.previous_eq
  · exact pairs_iff.2 ⟨c.carry hkept ht hu hnode hprevious hnext, rfl, rfl⟩

/-! `$x = str_replace('a', 'b', $s); $x = str_replace('c', 'd', $x);` with one edit in between. The
grammar need know no more than the text of the merged call. -/

def plainInRow : RuleContext := inRow .eq "=" .literal .string "\x27c\x27"

def signPiece (sign : String) (start : Nat) : Concrete :=
  ⟨⟨sign, false, false, false, false, start, start + sign.utf8ByteSize, none⟩, []⟩

def rolePiece (role kind : String) (start stop : Nat) (children : List Concrete) : Concrete :=
  ⟨⟨kind, true, false, false, false, start, stop, some role⟩, children⟩

/-- A quoted letter as an element of a list. -/
def elementPiece (start : Nat) : Concrete :=
  Parse.piece "array_element_initializer" start (start + 3)
    [Parse.piece "string" start (start + 3) [signPiece "\x27" start,
      Parse.piece "string_content" (start + 1) (start + 2) [], signPiece "\x27" (start + 2)]]

/-- A list of two quoted letters as an argument. -/
def listPiece (start : Nat) : Concrete :=
  Parse.piece "argument" start (start + 15)
    [Parse.piece "array_creation_expression" start (start + 15)
      [signPiece "array" start, signPiece "(" (start + 5), elementPiece (start + 6),
        signPiece "," (start + 9), elementPiece (start + 11), signPiece ")" (start + 14)]]

def mergedPiece : Concrete :=
  Parse.piece "program" 0 56
    [Parse.piece "php_tag" 0 5 [], Parse.piece "expression_statement" 6 56
      [Parse.piece "function_call_expression" 6 55 [rolePiece "function" "name" 6 17 [],
        rolePiece "arguments" "arguments" 17 55 [signPiece "(" 17, listPiece 18, signPiece "," 33,
          listPiece 35, signPiece "," 50, Parse.piece "argument" 52 54
            [Parse.piece "variable_name" 52 54 [signPiece "$" 52, Parse.piece "name" 53 54 []]],
          signPiece ")" 54]], signPiece ";" 55]]

def mergedGrammar : Grammar := fun source =>
  if source = "<?php str_replace(array(\x27a\x27, \x27c\x27), array(\x27b\x27, \x27d\x27), $s);"
  then some mergedPiece else none

/-- One plan leads to `u`, and there the merge is carried out. -/
def MergedBehind (plan : EditPlan) (u : Tree) : Prop :=
  (∃ applied, plan.apply mergedGrammar plainInRow.tree = .ok (u, applied)) ∧
    ∃ result, (mergeFix plainInRow 36 16).apply mergedGrammar u = .ok result

theorem exists_of_toOption {ε α : Type} {x : Except ε α} (h : x.toOption.isSome = true) :
    ∃ a, x = .ok a := by
  cases x with
  | error e => cases h
  | ok a => exact ⟨a, rfl⟩

theorem exists_mergedBehind (plan : EditPlan) (p : Tree → Prop) [DecidablePred p]
    (h : ((plan.apply mergedGrammar plainInRow.tree).toOption.any fun staged => p staged.1 ∧
      ((mergeFix plainInRow 36 16).apply mergedGrammar staged.1).toOption.isSome) = true) :
    ∃ u, MergedBehind plan u ∧ p u := by
  cases hplan : plan.apply mergedGrammar plainInRow.tree with
  | error e =>
    rw [hplan] at h
    cases h
  | ok staged =>
    rw [hplan] at h
    obtain ⟨hp, hfix⟩ := of_decide_eq_true h
    exact ⟨staged.1, ⟨⟨staged.2, hplan⟩, exists_of_toOption hfix⟩, hp⟩

theorem pairs_plainInRow : Pairs plainInRow 37 36 16 :=
  pairs_iff.2 ⟨inRowCascade .eq "=" .literal .string "\x27c\x27", rfl, rfl⟩

theorem not_pairs_of_check {ctx : RuleContext} {patch eliminate : NodeId}
    (h : rule.check ctx node = []) : ¬ Pairs ctx node patch eliminate := by
  rintro ⟨f, hf, -⟩
  rw [h] at hf
  cases hf

/-- An empty statement behind both is nothing to them. -/
theorem pairs_before_empty_statement :
    ∃ u, MergedBehind ⟨"behind", [.insertSibling 39 true .token ";"]⟩ u ∧
      Pairs { plainInRow with tree := u } 37 36 16 := by
  obtain ⟨u, hmerged, hnode, hprevious, hnext⟩ :=
    exists_mergedBehind ⟨"behind", [.insertSibling 39 true .token ";"]⟩
      (fun u => u.version 37 = plainInRow.tree.version 37 ∧
        u.version 19 = plainInRow.tree.version 19 ∧ u.previousStatement? 39 = some 19)
      (by decide +kernel)
  obtain ⟨applied, hplan⟩ := hmerged.1
  obtain ⟨result, happly⟩ := hmerged.2
  let now : RuleContext := { plainInRow with tree := u }
  have hrun : Tree.Run (fun _ _ => True) plainInRow.tree := by
    change Tree.Run _ (inRowTree .eq "=" .literal .string "\x27c\x27")
    rw [inRowTree]
    exact .built _
  have hleads : EditPlan.Leads mergedGrammar plainInRow.tree now.tree := .single ⟨_, applied, hplan⟩
  obtain ⟨statement, previous, hstatement, hbefore, -, -, hdone, -⟩ :=
    merge_after_plans hrun pairs_plainInRow hleads
  obtain rfl : statement = 39 := Option.some.inj
    (hstatement.symm.trans (inRowCascade .eq "=" .literal .string "\x27c\x27").statement_eq)
  obtain rfl : previous = 19 := Option.some.inj
    (hbefore.symm.trans (inRowCascade .eq "=" .literal .string "\x27c\x27").previous_eq)
  exact ⟨u, hmerged, (hdone result happly).2.2.2 hnode hprevious hnext⟩

/-- What is around the two calls is not looked at: the first result may go to another variable by
now, or something else may stand between the statements, and the merge is made all the same. -/
theorem exists_mergedBehind_not_pairs :
    Pairs plainInRow 37 36 16 ∧
    (∃ u, MergedBehind ⟨"another variable", [.replace 0 .token "$y"]⟩ u ∧
      u.previousStatement? 39 = some 19 ∧ ¬ Pairs { plainInRow with tree := u } 37 36 16) ∧
    ∃ u, MergedBehind ⟨"between", [.insertSibling 19 true .token ";"]⟩ u ∧
      u.version 37 = plainInRow.tree.version 37 ∧ u.version 19 = plainInRow.tree.version 19 ∧
      ¬ Pairs { plainInRow with tree := u } 37 36 16 := by
  refine ⟨pairs_plainInRow, ?_, ?_⟩
  · obtain ⟨u, hmerged, hnext, hcheck⟩ :=
      exists_mergedBehind ⟨"another variable", [.replace 0 .token "$y"]⟩
        (fun u => u.previousStatement? 39 = some 19 ∧
          rule.check { plainInRow with tree := u } 37 = [])
        (by decide +kernel)
    exact ⟨u, hmerged, hnext, not_pairs_of_check hcheck⟩
  · obtain ⟨u, hmerged, hnode, hprevious, hcheck⟩ :=
      exists_mergedBehind ⟨"between", [.insertSibling 19 true .token ";"]⟩
        (fun u => u.version 37 = plainInRow.tree.version 37 ∧
          u.version 19 = plainInRow.tree.version 19 ∧
          rule.check { plainInRow with tree := u } 37 = [])
        (by decide +kernel)
    exact ⟨u, hmerged, hnode, hprevious, not_pairs_of_check hcheck⟩

end CascadeReplace

end PhpLint
