import Mathlib.Data.List.Flatten
import PhpLint.Proofs.Condition.Truth
import PhpLint.Proofs.Tree.Subtree

/-! Where the terms of a condition stand: apart from one another, and under nothing but parentheses
and operators up to what the condition is a condition of. -/

namespace PhpLint

open List

namespace Node

variable {n c m : Node} {ns : List Node}

theorem flatMap_ids_sublist (h : ns <+ n.children) : ns.flatMap ids <+ n.ids := by
  rw [ids_eq]
  exact (h.flatMap ids).cons _

theorem ids_sublist_of_mem (h : c ∈ n.children) : c.ids <+ n.ids := by
  have := flatMap_ids_sublist (List.singleton_sublist.2 h)
  rwa [List.flatMap_singleton] at this

theorem map_id_sublist_flatMap_ids (ns : List Node) : ns.map id <+ ns.flatMap ids := by
  induction ns with
  | nil => exact .slnil
  | cons n ns ih =>
    rw [List.map_cons, List.flatMap_cons, ids_eq]
    exact (ih.trans (List.sublist_append_right _ _)).cons_cons _

/-- The operands of an operator, the left one first. -/
theorem operands_sublist (n : Node) : n.left?.toList ++ n.right?.toList <+ n.children := by
  have hpair : n.childNodes[0]?.toList ++ n.childNodes[1]?.toList <+ n.childNodes := by
    rcases n.childNodes with - | ⟨a, - | ⟨b, rest⟩⟩
    · exact .slnil
    · exact .refl _
    · exact ((List.nil_sublist rest).cons_cons b).cons_cons a
  have hchildren : n.childNodes <+ n.children := List.filter_sublist
  unfold left? right?
  cases n.kind <;> first | exact hpair.trans hchildren | exact List.nil_sublist _

theorem ids_unparenthesized_sublist (n : Node) : n.unparenthesized.ids <+ n.ids := by
  fun_induction unparenthesized n with
  | case1 n _ inner hinner ih =>
    exact ih.trans (ids_sublist_of_mem (mem_children_of_operand? hinner))
  | case2 => exact .refl _
  | case3 => exact .refl _

end Node

namespace Terms

theorem flatMap_ids_chain_sublist (op : Kind) (n : Node) :
    (chain op n).flatMap Node.ids <+ n.ids := by
  have hone : ∀ m : Node, [m.unparenthesized].flatMap Node.ids <+ m.ids := fun m => by
    rw [List.flatMap_singleton]
    exact m.ids_unparenthesized_sublist
  fun_induction chain op n with
  | case1 n _ left right hleft hright ih =>
    have hoperands := n.operands_sublist
    rw [hleft, hright] at hoperands
    refine Sublist.trans ?_ (Node.flatMap_ids_sublist hoperands)
    simp only [List.flatMap_append, Option.toList_some, List.flatMap_singleton]
    exact ih.append right.ids_unparenthesized_sublist
  | case2 n => exact hone n
  | case3 n => exact hone n

/-- No two terms have a node in common. -/
theorem flatMap_ids_ofCondition_sublist (c : Node) :
    (ofCondition c).terms.flatMap Node.ids <+ c.ids := by
  refine Sublist.trans ?_ c.ids_unparenthesized_sublist
  rw [ofCondition]
  split
  next op _ => exact flatMap_ids_chain_sublist op _
  next =>
    dsimp only
    rw [List.flatMap_singleton]

end Terms

/-- Kinds of nodes that are only parts: of a condition or of a call. -/
def Kind.isPart (kind : Kind) : Bool :=
  [.parenExpr, .binaryExpr, .unaryExpr, .callExpr, .argList].contains kind

namespace Tree

variable {t : Tree} {x y p q : NodeId} {n m c : Node}

/-- The closest node above that is not just a part of another one. -/
inductive Owner (t : Tree) : NodeId → NodeId → Prop
  | parent {x p : NodeId} : t.Under x p → (t.kind p).isPart = false → Owner t x p
  | above {x y p : NodeId} : t.Under x y → (t.kind y).isPart = true → Owner t y p → Owner t x p

theorem Owner.unique (hp : t.Owner x p) (hq : t.Owner x q) : p = q := by
  induction hp with
  | parent hu hkind =>
    cases hq with
    | parent hu' _ => exact hu.parent_unique hu'
    | above hu' hkind' _ =>
      rw [hu.parent_unique hu', hkind'] at hkind
      cases hkind
  | above hu hkind _ ih =>
    cases hq with
    | parent hu' hkind' =>
      rw [hu.parent_unique hu', hkind'] at hkind
      cases hkind
    | above hu' _ hq => exact ih (hu.parent_unique hu' ▸ hq)

namespace Linked

variable (h : t.Linked) (hn : Slots.Holds t.slots n)

include h hn

theorem owner_of_mem (hkind : n.kind.isPart = true) (hown : t.Owner n.id p) (hc : c ∈ n.children) :
    t.Owner c.id p :=
  .above (h.under_of_mem hn hc) (by rwa [show t.kind n.id = n.kind from hn.kind_eq]) hown

theorem owner_unparenthesized (hown : t.Owner n.id p) : t.Owner n.unparenthesized.id p := by
  fun_induction Node.unparenthesized n with
  | case1 n hkind inner hinner ih =>
    have hc := Node.mem_children_of_operand? hinner
    exact ih (hn.of_mem hc) (h.owner_of_mem hn (by rw [hkind]; rfl) hown hc)
  | case2 => exact hown
  | case3 => exact hown

theorem owner_of_mem_chain {op : Kind} (hown : t.Owner n.id p) (hm : m ∈ Terms.chain op n) :
    t.Owner m.id p := by
  fun_induction Terms.chain op n with
  | case1 n hkind left right hleft hright ih =>
    have hoperands := n.operands_sublist
    rw [hleft, hright] at hoperands
    have hpart : n.kind.isPart = true := by rw [hkind.1]; rfl
    have hl := hoperands.subset List.mem_cons_self
    have hr := hoperands.subset (List.mem_cons_of_mem _ List.mem_cons_self)
    rcases List.mem_append.1 hm with hm | hm
    · exact ih (hn.of_mem hl) (h.owner_of_mem hn hpart hown hl) hm
    · rw [List.mem_singleton.1 hm]
      exact h.owner_unparenthesized (hn.of_mem hr) (h.owner_of_mem hn hpart hown hr)
  | case2 n => exact List.mem_singleton.1 hm ▸ h.owner_unparenthesized hn hown
  | case3 n => exact List.mem_singleton.1 hm ▸ h.owner_unparenthesized hn hown

theorem owner_of_mem_ofCondition (hown : t.Owner n.id p) (hm : m ∈ (Terms.ofCondition n).terms) :
    t.Owner m.id p := by
  rw [Terms.ofCondition] at hm
  split at hm
  next =>
    have hroot := hn.of_mem_preorder n.unparenthesized_mem_preorder
    exact h.owner_of_mem_chain hroot (h.owner_unparenthesized hn hown) hm
  next => exact List.mem_singleton.1 hm ▸ h.owner_unparenthesized hn hown

end Linked

end Tree

end PhpLint
