import PhpLint.Proofs.Tree.Footprint
import PhpLint.Proofs.Tree.GivenUp
import PhpLint.Proofs.Tree.Grafting
import PhpLint.Proofs.Tree.Reading
import PhpLint.Tree.Position

/-! Changes of a tree as seen in its text. A change is told by what child lists have in place of
each of their old members, all changes at once and by name; what is around a node in the text of
one above it is then the same before and after. -/

namespace PhpLint

theorem Node.textAll_eq (ns : List Node) : textAll ns = String.join (ns.map text) := by
  induction ns with
  | nil => rfl
  | cons n ns ih => rw [textAll, ih, List.map_cons, String.join_cons]

theorem join_flatMap {α : Type} (xs : List α) (f : α → List String) :
    String.join (xs.flatMap f) = String.join (xs.map fun x => String.join (f x)) := by
  induction xs with
  | nil => rfl
  | cons x xs ih => rw [List.flatMap_cons, String.join_append, List.map_cons, String.join_cons, ih]

namespace Tree

variable {t u v : Tree} {c id n p q top x old replacement : NodeId} {i : Nat}
  {left right : List NodeId} {into into' : NodeId → List NodeId}

/-! Texts and offsets along the links. -/

theorem Linked.textOf_eq (h : t.Linked) (n : NodeId) :
    t.textOf n = (t.tokenText? n).getD "" ++ String.join ((t.children n).map t.textOf) := by
  by_cases hn : n < t.size
  · obtain ⟨m, hm, rfl⟩ := h.exists_holds hn
    have hchildren : (t.children m.id).map t.textOf = m.children.map Node.text := by
      rw [children_of_holds hm, List.map_map]
      exact List.map_congr_left fun c hc => congrArg Node.text (h.node_eq (hm.of_mem hc))
    have htoken : t.tokenText? m.id = m.token := hm.text_eq
    rw [textOf, h.node_eq hm, htoken, hchildren, ← Node.textAll_eq]
    cases m
    rfl
  · have hle := Nat.le_of_not_lt hn
    rw [textOf, node_of_size_le hle, children_of_size_le hle, tokenText?, slot_of_size_le hle]
    rfl

theorem textLength_eq (t : Tree) (n : NodeId) : t.textLength n = (t.textOf n).utf8ByteSize :=
  Node.textLength_eq _

theorem offsetWithin_succ_of_length_le {fuel : Nat}
    (h : (t.chain (fuel + 1) (some id)).length ≤ fuel) :
    t.offsetWithin (fuel + 1) id = t.offsetWithin fuel id := by
  induction fuel generalizing id with
  | zero => cases h
  | succ fuel ih =>
    rw [chain, List.length_cons, Nat.add_le_add_iff_right] at h
    rw [offsetWithin, offsetWithin]
    cases hp : t.parent? id with
    | none => rfl
    | some p =>
      rw [hp] at h
      dsimp only
      rw [ih h]

theorem foldr_textLength (t : Tree) (ids : List NodeId) (start : Nat) :
    ids.foldr (t.textLength · + ·) start =
      start + (String.join (ids.map t.textOf)).utf8ByteSize := by
  induction ids with
  | nil => rfl
  | cons id ids ih =>
    rw [List.foldr_cons, ih, List.map_cons, String.join_cons, String.utf8ByteSize_append,
      textLength_eq, Nat.add_left_comm]

/-- Where a node begins: behind the children before it, and these where the parent begins. -/
theorem Linked.offset_of_under (h : t.Linked) (hu : t.Under c p) :
    t.offset c = t.offset p +
      (String.join (((t.children p).take (t.index c)).map t.textOf)).utf8ByteSize := by
  obtain ⟨fuel, hfuel⟩ := Nat.exists_eq_succ_of_ne_zero (Nat.ne_zero_of_lt hu.lt_size)
  have hsub : t.chain (t.size + 1) (some c) ⊆ List.range t.size := fun x hx =>
    List.mem_range.2 (h.lt_size_of_within (within_of_mem_chain hx) hu.lt_size)
  have hlength := (List.subperm_of_subset (h.nodup_chain _) hsub).length_le
  rw [List.length_range, chain, List.length_cons, show t.parent? c = some p from hu, hfuel]
    at hlength
  rw [offset, offset, hfuel, offsetWithin, show t.parent? c = some p from hu,
    offsetWithin_succ_of_length_le (Nat.le_of_succ_le_succ hlength)]
  exact foldr_textLength _ _ _

/-- The children before a child, and those behind it. -/
theorem Linked.exists_split (h : t.Linked) (hu : t.Under c p) :
    ∃ left right, t.children p = left ++ c :: right ∧ t.index c = left.length := by
  obtain ⟨hlt, hget⟩ := List.getElem?_eq_some_iff.1 (h.getElem?_index hu)
  refine ⟨(t.children p).take (t.index c), (t.children p).drop (t.index c + 1), ?_,
    (List.length_take_of_le hlt.le).symm⟩
  conv_lhs => rw [← List.take_append_drop (t.index c) (t.children p)]
  rw [List.drop_eq_getElem_cons hlt, hget]

theorem Linked.index_of_split (h : t.Linked) (hsplit : t.children p = left ++ c :: right) :
    t.Under c p ∧ t.index c = left.length :=
  h.getElem?_eq_some_iff.1 (by rw [hsplit, List.getElem?_append_right (Nat.le_refl _),
    Nat.sub_self, List.getElem?_cons_zero])

theorem Linked.offset_of_split (h : t.Linked) (hsplit : t.children p = left ++ c :: right) :
    t.offset c = t.offset p + (String.join (left.map t.textOf)).utf8ByteSize := by
  obtain ⟨hunder, hindex⟩ := h.index_of_split hsplit
  rw [h.offset_of_under hunder, hindex, hsplit, List.take_left]

theorem Sound.offset_root (h : t.Sound) : t.offset t.root = 0 := by
  rw [offset]
  cases t.size with
  | zero => rfl
  | succ depth => rw [offsetWithin, h.parent?_root]

/-- The subtrees of different children have nothing in common. -/
theorem Linked.not_within_of_sibling (h : t.Linked) (hc : t.Under c p) (hx : t.Under x p)
    (hne : c ≠ x) (hw : t.Within n c) : ¬ t.Within n x := fun hw' => by
  rcases hw.total hw' with hcx | hxc
  · exact h.not_within_of_under hx (hcx.of_parent hc hne)
  · exact h.not_within_of_under hc (hxc.of_parent hx hne.symm)

/-! What a change puts in place of what. -/

/-- In `u` the old nodes have the texts they had in `t`, and in place of each old child the nodes
that `into` names for it. -/
structure Recast (t u : Tree) (into : NodeId → List NodeId) : Prop where
  root_eq : u.root = t.root
  size_le : t.size ≤ u.size
  children_eq : ∀ n < t.size, u.children n = (t.children n).flatMap into
  tokenText?_eq : ∀ n < t.size, u.tokenText? n = t.tokenText? n

/-- The text in place of an old node. -/
def shown (u : Tree) (into : NodeId → List NodeId) (c : NodeId) : String :=
  String.join ((into c).map u.textOf)

theorem shown_of_eq (h : into c = [c]) : shown u into c = u.textOf c := by
  rw [shown, h, List.map_singleton, String.join_cons, String.join_nil, String.append_empty]

namespace Recast

theorem refl (t : Tree) : Recast t t fun c => [c] :=
  ⟨rfl, Nat.le_refl _, fun _ _ => (List.flatMap_singleton' _).symm, fun _ _ => rfl⟩

theorem trans (h : Recast t u into) (h' : Recast u v into') :
    Recast t v fun c => (into c).flatMap into' where
  root_eq := h'.root_eq.trans h.root_eq
  size_le := h.size_le.trans h'.size_le
  children_eq := fun n hn => by
    rw [h'.children_eq n (hn.trans_le h.size_le), h.children_eq n hn, List.flatMap_assoc]
  tokenText?_eq := fun n hn =>
    (h'.tokenText?_eq n (hn.trans_le h.size_le)).trans (h.tokenText?_eq n hn)

/-- The text of an old node, from what is in place of its children. -/
theorem textOf_eq (h : Recast t u into) (hu : u.Linked) (hn : n < t.size) :
    u.textOf n =
      (t.tokenText? n).getD "" ++ String.join ((t.children n).map (shown u into)) := by
  rw [hu.textOf_eq, h.tokenText?_eq n hn, h.children_eq n hn, List.map_flatMap, join_flatMap]
  rfl

/-- A path stays one where nothing on it changes. -/
theorem within (h : Recast t u into) (ht : t.Linked) (hu : u.Linked) (hw : t.Within x top)
    (hsame : ∀ c, t.Within x c → t.Within c top → c ≠ top → into c = [c]) : u.Within x top := by
  induction hw using Relation.ReflTransGen.head_induction_on with
  | refl => exact .refl u top
  | @head x p hunder hp ih =>
    have hne : x ≠ top := fun he => ht.not_within_of_under hunder (he ▸ hp)
    have hmem : x ∈ u.children p := by
      rw [h.children_eq p (ht.parent_lt_size hunder), List.mem_flatMap]
      exact ⟨x, ht.mem_children.2 hunder,
        hsame x (.refl t x) (.trans (.of_under hunder) hp) hne ▸ List.mem_singleton_self x⟩
    exact (Within.of_under (hu.mem_children.1 hmem)).trans
      (ih fun c hc => hsame c (.trans (.of_under hunder) hc))

/-- Where nothing below a node changes, its text does not. -/
theorem textOf_of_untouched (h : Recast t u into) (ht : t.Linked) (hu : u.Linked)
    (hn : n < t.size) (hsame : ∀ c, t.Within c n → c ≠ n → into c = [c]) :
    u.textOf n = t.textOf n := by
  induction n using ht.wellFounded.induction with
  | _ n ih =>
    rw [h.textOf_eq hu hn, ht.textOf_eq]
    congr 2
    refine List.map_congr_left fun c hc => ?_
    have hunder := ht.mem_children.1 hc
    have hne : c ≠ n := fun he => ht.not_within_of_under hunder (he ▸ .refl t n)
    rw [shown_of_eq (hsame c (.of_under hunder) hne)]
    refine ih c hunder hunder.lt_size fun d hd _ => hsame d (hd.trans (.of_under hunder)) ?_
    rintro rfl
    exact ht.not_within_of_under hunder hd

/-- A change within `x` does not show in the other children of its parent. -/
theorem shown_of_sibling (h : Recast t u into) (ht : t.Linked) (hu : u.Linked)
    (hc : t.Under c p) (hx : t.Under x p) (hne : c ≠ x)
    (hsame : ∀ d, t.Within d p → ¬ t.Within d x → into d = [d]) :
    shown u into c = t.textOf c := by
  have hwithin : ∀ d, t.Within d c → into d = [d] := fun d hd =>
    hsame d (hd.trans (.of_under hc)) (ht.not_within_of_sibling hc hx hne hd)
  rw [shown_of_eq (hwithin c (.refl t c))]
  exact h.textOf_of_untouched ht hu hc.lt_size fun d hd _ => hwithin d hd

end Recast

/-- `before` and `behind` are the text around `x` within that of `top`, now and after any change
that touches nothing but what is within `x`. -/
structure Framed (t : Tree) (x top : NodeId) (before behind : String) : Prop where
  shown_eq : ∀ {u into}, Recast t u into → u.Linked →
    (∀ c, t.Within c top → ¬ t.Within c x → into c = [c]) →
    shown u into top = before ++ shown u into x ++ behind
  offset_eq : (∀ q, t.Within x q → t.Within q top → q ≠ x → t.tokenText? q = none) →
    t.offset x = t.offset top + before.utf8ByteSize

namespace Framed

variable {before behind : String}

theorem refl (t : Tree) (x : NodeId) : t.Framed x x "" "" :=
  ⟨fun _ _ _ => by simp, fun _ => rfl⟩

theorem under (h : t.Framed p top before behind) (ht : t.Linked) (hp : t.Within p top)
    (hunder : t.Under x p) {left right : List NodeId}
    (hchildren : t.children p = left ++ x :: right) (hindex : t.index x = left.length) :
    t.Framed x top (before ++ ((t.tokenText? p).getD "" ++ String.join (left.map t.textOf)))
      (String.join (right.map t.textOf) ++ behind) where
  shown_eq := fun {u into} hrecast hu hsame => by
    have hnodup := hchildren ▸ ht.nodup p
    rw [List.nodup_middle, List.nodup_cons, List.mem_append] at hnodup
    have hsibling : ∀ d, d ∈ left ∨ d ∈ right → shown u into d = t.textOf d := fun d hd => by
      have hdp : t.Under d p := ht.mem_children.1 (by
        rw [hchildren, List.mem_append, List.mem_cons]
        exact hd.imp_right .inr)
      exact hrecast.shown_of_sibling ht hu hdp hunder (fun he => hnodup.1 (he ▸ hd))
        fun c hc => hsame c (hc.trans hp)
    have hleftShown : left.map (shown u into) = left.map t.textOf :=
      List.map_congr_left fun d hd => hsibling d (.inl hd)
    have hrightShown : right.map (shown u into) = right.map t.textOf :=
      List.map_congr_left fun d hd => hsibling d (.inr hd)
    rw [h.shown_eq hrecast hu fun c hc hcp =>
        hsame c hc fun hcx => hcp (hcx.trans (.of_under hunder)),
      shown_of_eq (hsame p hp (ht.not_within_of_under hunder)),
      hrecast.textOf_eq hu (ht.parent_lt_size hunder), hchildren, List.map_append, List.map_cons,
      hleftShown, hrightShown, String.join_append, String.join_cons]
    simp only [String.append_assoc]
  offset_eq := fun htokens => by
    have hne : p ≠ x := fun he => ht.not_within_of_under hunder (he ▸ .refl t p)
    have htoken : t.tokenText? p = none := htokens p (.of_under hunder) hp hne
    have habove := h.offset_eq fun q hpq hq _ => htokens q (.trans (.of_under hunder) hpq) hq
      fun he => ht.not_within_of_under hunder (he ▸ hpq)
    rw [ht.offset_of_under hunder, habove, hindex, hchildren, List.take_left, htoken,
      String.utf8ByteSize_append, String.utf8ByteSize_append, Option.getD_none,
      String.utf8ByteSize_empty, Nat.zero_add, Nat.add_assoc]

theorem textOf_eq (h : t.Framed x top before behind) (ht : t.Linked) :
    t.textOf top = before ++ t.textOf x ++ behind := by
  have hshown := h.shown_eq (.refl t) ht fun _ _ _ => rfl
  rwa [shown_of_eq rfl, shown_of_eq rfl] at hshown

end Framed

theorem Linked.exists_framed (h : t.Linked) (hw : t.Within x top) :
    ∃ before behind, t.Framed x top before behind := by
  induction hw using Relation.ReflTransGen.head_induction_on with
  | refl => exact ⟨"", "", .refl t top⟩
  | head hunder hp ih =>
    obtain ⟨before, behind, hframed⟩ := ih
    obtain ⟨left, right, hchildren, hindex⟩ := h.exists_split hunder
    exact ⟨_, _, hframed.under h hp hunder hchildren hindex⟩

/-! What the edits put in place of what. -/

theorem Linked.recast_graft (h : t.Linked) (m : Node) : Recast t (t.graft m).1 fun c => [c] := by
  have g := h.graft m
  refine ⟨g.root_eq, g.size_le, fun n hn => ?_, fun n hn => ?_⟩
  · rw [children, g.slot_eq n hn, List.flatMap_singleton', children]
  · rw [tokenText?, g.slot_eq n hn, tokenText?]

theorem flatMap_kept {cs ids : List NodeId} (h : x ∉ cs) :
    (cs.flatMap fun c => if c = x then ids else [c]) = cs := by
  conv_rhs => rw [← List.flatMap_singleton' cs]
  refine List.flatMap_congr fun c hc => if_neg ?_
  rintro rfl
  exact h hc

theorem flatMap_replaced {left right ids : List NodeId} (h : (left ++ x :: right).Nodup) :
    ((left ++ x :: right).flatMap fun c => if c = x then ids else [c]) = left ++ ids ++ right := by
  rw [List.nodup_middle, List.nodup_cons, List.mem_append] at h
  rw [List.flatMap_append, List.flatMap_cons, if_pos rfl, flatMap_kept fun hx => h.1 (.inl hx),
    flatMap_kept fun hx => h.1 (.inr hx), List.append_assoc]

theorem insertIdx_length_append {α : Type} (left right : List α) (a : α) :
    (left ++ right).insertIdx left.length a = left ++ a :: right := by
  induction left with
  | nil => rfl
  | cons b left ih => rw [List.cons_append, List.length_cons, List.insertIdx_succ_cons, ih,
      List.cons_append]

/-- A change of the child lists that has `ids` in place of `x` in that of its parent. -/
theorem Linked.recast_at (h : t.Linked) (hx : t.Under x p) (hroot : u.root = t.root)
    (hsize : t.size ≤ u.size)
    (htoken : ∀ n, u.tokenText? n = t.tokenText? n) {left right ids : List NodeId}
    (hsplit : t.children p = left ++ x :: right) (hp : u.children p = left ++ ids ++ right)
    (hother : ∀ n, n ≠ p → u.children n = t.children n) :
    Recast t u fun c => if c = x then ids else [c] where
  root_eq := hroot
  size_le := hsize
  tokenText?_eq := fun n _ => htoken n
  children_eq := fun n _ => by
    by_cases hn : n = p
    · rw [hn, hp, hsplit, flatMap_replaced (hsplit ▸ h.nodup p)]
    · rw [hother n hn, flatMap_kept fun hmem =>
        hn (Under.parent_unique (h.mem_children.1 hmem) hx)]

theorem size_unlinked : (t.unlinked p i id).size = t.size := by
  rw [unlinked_eq, size_flagged, size_rewired]

theorem root_unlinked : (t.unlinked p i id).root = t.root := by
  rw [unlinked_eq, root_flagged, root_rewired]

theorem Linked.children_unlinked (h : t.Linked) (hu : t.Under id p) (n : NodeId) :
    (t.unlinked p (t.index id) id).children n =
      if n = p then (t.children n).eraseIdx (t.index id) else t.children n := by
  rw [unlinked_eq, children_flagged, children_rewired (h.parent_lt_size hu) hu.lt_size]

theorem Linked.tokenText?_unlinked (h : t.Linked) (hu : t.Under id p) (n : NodeId) :
    (t.unlinked p (t.index id) id).tokenText? n = t.tokenText? n := by
  rw [unlinked_eq, tokenText?_flagged, tokenText?_rewired (h.parent_lt_size hu) hu.lt_size]

/-- Without a child there is nothing in its place. -/
theorem Linked.children_unlinked_parent (h : t.Linked) (hu : t.Under id p)
    {left right : List NodeId} (hsplit : t.children p = left ++ id :: right)
    (hindex : t.index id = left.length) :
    (t.unlinked p (t.index id) id).children p = left ++ right := by
  rw [h.children_unlinked hu, if_pos rfl, hindex, hsplit,
    List.eraseIdx_append_of_length_le (Nat.le_refl _), Nat.sub_self, List.eraseIdx_cons_zero]

theorem Sound.recast_remove (h : t.Sound) (hremove : Tree.remove id t = .ok i u) :
    Recast t u fun c => if c = id then [] else [c] := by
  obtain ⟨p, hu, -, -, rfl, rfl⟩ := remove_ok hremove
  obtain ⟨left, right, hsplit, hindex⟩ := h.linked.exists_split hu
  refine h.linked.recast_at hu root_unlinked size_unlinked.ge (h.linked.tokenText?_unlinked hu)
    hsplit ?_ fun n hn => ?_
  · rw [List.append_nil, h.linked.children_unlinked_parent hu hsplit hindex]
  · rw [h.linked.children_unlinked hu, if_neg hn]

/-- Replacing is taking out and putting in at the place that is free then. -/
theorem Sound.touched_replace (h : t.Sound) (hr : replacement < t.size)
    (hreplace : Tree.replace old replacement t = .ok () u) : ∃ p, t.Under old p ∧
      Touched t (t.unlinked p (t.index old) old) p old ∧
      Touched (t.unlinked p (t.index old) old) u p replacement ∧
      u.children p =
        ((t.unlinked p (t.index old) old).children p).insertIdx (t.index old) replacement := by
  obtain ⟨-, p, w, hu, hremove, hinsert⟩ := replace_ok hreplace
  obtain ⟨q, hq, hout, -, -⟩ := h.touched_remove hremove
  obtain rfl := hu.parent_unique hq
  obtain ⟨q, hq, -, -, -, rfl⟩ := remove_ok hremove
  obtain rfl := hu.parent_unique hq
  obtain ⟨hin, -, hchildren⟩ :=
    (h.of_remove hremove).touched_insert (hout.size_eq.symm ▸ hr) hinsert
  exact ⟨p, hu, hout, hin, hchildren⟩

theorem Sound.size_of_replace (h : t.Sound) (hr : replacement < t.size)
    (hreplace : Tree.replace old replacement t = .ok () u) : u.size = t.size := by
  obtain ⟨p, -, hout, hin, -⟩ := h.touched_replace hr hreplace
  exact hin.size_eq.trans hout.size_eq

theorem Sound.recast_replace (h : t.Sound) (hr : replacement < t.size)
    (hreplace : Tree.replace old replacement t = .ok () u) :
    Recast t u fun c => if c = old then [replacement] else [c] := by
  obtain ⟨p, hu, hout, hin, hchildren⟩ := h.touched_replace hr hreplace
  obtain ⟨left, right, hsplit, hindex⟩ := h.linked.exists_split hu
  refine h.linked.recast_at hu (hin.root_eq.trans hout.root_eq) (h.size_of_replace hr hreplace).ge
    (fun n => (hin.tokenText?_eq n).trans (hout.tokenText?_eq n)) hsplit ?_ fun n hn =>
      (hin.children_eq n hn).trans (hout.children_eq n hn)
  rw [hchildren, h.linked.children_unlinked_parent hu hsplit hindex, hindex,
    insertIdx_length_append, List.append_assoc, List.singleton_append]

end Tree

end PhpLint
