import PhpLint.Proofs.Tree.Footprint
import PhpLint.Proofs.Tree.Positions

/-! Edits as splices of the text. What is done in one child list shows as one cut, at the place
where climbing from that list says it is; the text before the cut and behind it stays. -/

namespace PhpLint.Tree

variable {t u : Tree} {c id p q x parent child old replacement : NodeId} {index i : Nat}
  {into : NodeId → List NodeId}

/-! What is above a node. -/

/-- Where the parents from a node upwards are the same, so is all it stands in. -/
theorem within_of_parents (hp : ∀ q, t.Within id q → u.parent? q = t.parent? q) :
    u.Within id x ↔ t.Within id x := by
  constructor
  · intro hw
    induction hw with
    | refl => exact .refl t id
    | tail _ hu ih =>
      rw [Under, hp _ ih] at hu
      exact ih.trans (.of_under hu)
  · intro hw
    induction hw with
    | refl => exact .refl u id
    | tail hw hu ih => exact ih.trans (.of_under ((hp _ hw).trans hu))

theorem Linked.isExposed_iff (h : t.Linked) :
    t.isExposed id = true ↔ ∀ q, t.Within id q → q ≠ id → t.tokenText? q = none := by
  refine ⟨fun hexposed q hq hne => h.tokenText?_above hexposed hq hne, fun habove => ?_⟩
  refine List.all_eq_true.2 fun q hq => ?_
  cases hp : t.parent? id with
  | none =>
    rw [ancestors_of_parent?_eq_none hp] at hq
    cases hq
  | some p =>
    rw [h.ancestors_of_under hp, h.mem_cons_ancestors (h.parent_lt_size hp)] at hq
    have hne : q ≠ id := fun he => h.not_within_of_under hp (he ▸ hq)
    rw [isToken, habove q ((Within.of_under hp).trans hq) hne]
    rfl

theorem Linked.isExposed_congr (ht : t.Linked) (hu : u.Linked)
    (hp : ∀ q, t.Within id q → u.parent? q = t.parent? q)
    (htoken : ∀ q, t.Within id q → u.tokenText? q = t.tokenText? q) :
    u.isExposed id = t.isExposed id := by
  rw [Bool.eq_iff_iff, hu.isExposed_iff, ht.isExposed_iff]
  refine forall_congr' fun q => ⟨fun h hw hne => ?_, fun h hw hne => ?_⟩
  · exact (htoken q hw).symm.trans (h ((within_of_parents hp).2 hw) hne)
  · have hw := (within_of_parents hp).1 hw
    exact (htoken q hw).trans (h hw hne)

/-- A node begins where it began as long as nothing outside it changes. -/
theorem Recast.offset_eq (h : Recast t u into) (ht : t.Sound) (hu : u.Sound)
    (hx : t.Within x t.root) (hself : into x = [x])
    (hsame : ∀ c, ¬ t.Within c x → into c = [c]) : u.offset x = t.offset x := by
  induction hx using Relation.ReflTransGen.head_induction_on with
  | refl =>
    have hroot := hu.offset_root
    rwa [h.root_eq, ← ht.offset_root] at hroot
  | @head x p hunder hp ih =>
    have hl := ht.linked
    obtain ⟨left, right, hsplit, -⟩ := hl.exists_split hunder
    have hsibling : ∀ c ∈ t.children p, c ≠ x → ∀ d, t.Within d c → into d = [d] :=
      fun c hc hne d hd => hsame d
        (hl.not_within_of_sibling (hl.mem_children.1 hc) hunder hne hd)
    have hchildren : u.children p = left ++ x :: right := by
      rw [h.children_eq p (hl.parent_lt_size hunder), ← hsplit]
      conv_rhs => rw [← List.flatMap_singleton' (t.children p)]
      refine List.flatMap_congr fun c hc => ?_
      by_cases hne : c = x
      · exact hne ▸ hself
      · exact hsibling c hc hne c (.refl t c)
    have hleft : left.map u.textOf = left.map t.textOf := List.map_congr_left fun c hc => by
      have hmem : c ∈ t.children p := hsplit ▸ List.mem_append_left _ hc
      have hnodup := hsplit ▸ hl.nodup p
      rw [List.nodup_middle, List.nodup_cons, List.mem_append] at hnodup
      have hne : c ≠ x := fun he => hnodup.1 (.inl (he ▸ hc))
      exact h.textOf_of_untouched hl hu.linked (hl.lt_size_of_mem hmem) fun d hd _ =>
        hsibling c hmem hne d hd
    rw [hl.offset_of_split hsplit, hu.linked.offset_of_split hchildren, hleft,
      ih (hsame p (hl.not_within_of_under hunder)) fun c hc => hsame c fun hcx =>
        hc (hcx.trans (.of_under hunder))]

/-! Putting in. -/

theorem insertIdx_eq_take_append_cons {α : Type} {l : List α} {a : α}
    (h : index ≤ l.length) : l.insertIdx index a = l.take index ++ a :: l.drop index := by
  have hinsert := insertIdx_length_append (l.take index) (l.drop index) a
  rwa [List.take_append_drop, List.length_take_of_le h] at hinsert

/-- An insertion, read backwards, has nothing in place of the new child. -/
theorem Sound.recast_insert (h : t.Sound) (hchild : child < t.size)
    (hinsert : Tree.insert parent index child t = .ok () u) :
    Recast u t fun c => if c = child then [] else [c] := by
  obtain ⟨-, -, hhome, -, hindex, -⟩ := insert_ok hinsert
  obtain ⟨htouched, -, hchildren⟩ := h.touched_insert hchild hinsert
  refine ⟨htouched.root_eq.symm, htouched.size_eq.le, fun n _ => ?_,
    fun n _ => (htouched.tokenText?_eq n).symm⟩
  have hfresh : child ∉ t.children n := fun hmem => by
    have hunder := h.linked.mem_children.1 hmem
    rw [Under, hhome] at hunder
    cases hunder
  by_cases hn : n = parent
  · have hnodup := (h.of_insert hchild hinsert).linked.nodup parent
    rw [hchildren, insertIdx_eq_take_append_cons hindex] at hnodup
    rw [hn, hchildren, insertIdx_eq_take_append_cons hindex, flatMap_replaced hnodup,
      List.append_nil, List.take_append_drop]
  · rw [htouched.children_eq n hn, flatMap_kept hfresh]

/-- Nothing changes in the parents and texts from the new parent upwards. -/
theorem Sound.parent?_above_insert (h : t.Sound)
    (hinsert : Tree.insert parent index child t = .ok () u) (hchild : child < t.size) :
    ∀ q, t.Within parent q → u.parent? q = t.parent? q := by
  obtain ⟨hattached, -, -, hdetached, -⟩ := insert_ok hinsert
  obtain ⟨htouched, -, -⟩ := h.touched_insert hchild hinsert
  refine fun q hq => htouched.parent?_eq q ?_
  rintro rfl
  rw [h.isAttached_of_within hq, hdetached] at hattached
  cases hattached

/-- What the new child does not stand in shows what it showed, and so does the new child. -/
theorem Sound.textOf_of_insert (h : t.Sound) (hchild : child < t.size)
    (hinsert : Tree.insert parent index child t = .ok () u) (hc : c < t.size)
    (hout : u.Within child c → c = child) : u.textOf c = t.textOf c := by
  have hsize : u.size = t.size := (h.touched_insert hchild hinsert).1.size_eq
  refine ((h.recast_insert hchild hinsert).textOf_of_untouched (h.of_insert hchild hinsert).linked
    h.linked (hsize ▸ hc) fun d hd hne => if_neg ?_).symm
  rintro rfl
  exact hne (hout hd).symm

/-- The text of a node up to its child number `index`: its own, and that of the children before. -/
def textBefore (t : Tree) (parent : NodeId) (index : Nat) : String :=
  (t.tokenText? parent).getD "" ++ String.join (((t.children parent).take index).map t.textOf)

/-- The text of the children from number `index` on. -/
def textFrom (t : Tree) (parent : NodeId) (index : Nat) : String :=
  String.join (((t.children parent).drop index).map t.textOf)

theorem Linked.textOf_eq_append (h : t.Linked) (parent : NodeId) (index : Nat) :
    t.textOf parent = t.textBefore parent index ++ t.textFrom parent index := by
  rw [h.textOf_eq, textBefore, textFrom, String.append_assoc, ← String.join_append,
    ← List.map_append, List.take_append_drop]

/-- Around the children of a node that is put in nothing changes. -/
theorem Sound.exists_around_insert (h : t.Sound) (hchild : child < t.size)
    (hinsert : Tree.insert parent index child t = .ok () u) (hparent : t.Within parent t.root) :
    ∃ above below,
      t.text = above ++ (t.textBefore parent index ++ t.textFrom parent index) ++ below ∧
      u.text = above ++ (t.textBefore parent index ++ t.textOf child ++ t.textFrom parent index)
        ++ below ∧
      (t.isExposed parent = true → t.offset parent = above.utf8ByteSize) := by
  obtain ⟨-, hroot, -, -, hindex, -⟩ := insert_ok hinsert
  obtain ⟨htouched, hhome, hchildren⟩ := h.touched_insert hchild hinsert
  have hunder : u.Under child parent := hhome
  have hu := h.of_insert hchild hinsert
  have hrecast := h.recast_insert hchild hinsert
  have habove := h.parent?_above_insert hinsert hchild
  have hin : u.Within parent u.root :=
    htouched.root_eq ▸ (within_of_parents habove).2 hparent
  rw [insertIdx_eq_take_append_cons hindex] at hchildren
  have hne : parent ≠ child := fun he => hu.linked.not_within_of_under hunder (he ▸ .refl u child)
  have hsame : ∀ c, ¬ u.Within c child → (if c = child then [] else [c]) = [c] := by
    rintro c hc
    refine if_neg ?_
    rintro rfl
    exact hc (.refl u c)
  have hsibling : ∀ c ∈ (t.children parent).take index ++ (t.children parent).drop index,
      u.textOf c = t.textOf c := fun c hc => by
    have hmem : c ∈ t.children parent := by rwa [List.take_append_drop] at hc
    have hnodup := hchildren ▸ hu.linked.nodup parent
    rw [List.nodup_middle, List.nodup_cons] at hnodup
    refine h.textOf_of_insert hchild hinsert (h.linked.lt_size_of_mem hmem) fun hw => ?_
    by_contra hcne
    refine hu.linked.not_within_of_sibling (hu.linked.mem_children.1 ?_) hunder hcne hw (.refl u _)
    rw [hchildren, List.mem_append, List.mem_cons]
    exact (List.mem_append.1 hc).imp_right .inr
  have hleft : ((t.children parent).take index).map u.textOf =
      ((t.children parent).take index).map t.textOf :=
    List.map_congr_left fun c hc => hsibling c (List.mem_append_left _ hc)
  have hright : ((t.children parent).drop index).map u.textOf =
      ((t.children parent).drop index).map t.textOf :=
    List.map_congr_left fun c hc => hsibling c (List.mem_append_right _ hc)
  have hmoved : u.textOf child = t.textOf child :=
    h.textOf_of_insert hchild hinsert hchild fun _ => rfl
  obtain ⟨above, below, hframed⟩ := hu.linked.exists_framed hin
  have haround := hframed.under hu.linked hin hunder hchildren
    (hu.linked.index_of_split hchildren).2
  have hold := haround.shown_eq hrecast h.linked fun c _ hc => hsame c hc
  have hnew := haround.textOf_eq hu.linked
  rw [shown_of_eq (if_neg (htouched.root_eq ▸ hroot.symm)), htouched.root_eq, shown,
    if_pos rfl] at hold
  refine ⟨above, below, ?_, ?_, fun hexposed => ?_⟩
  · rw [text, hold, hleft, hright, htouched.tokenText?_eq]
    simp only [textBefore, textFrom, List.map_nil, String.join_nil, String.append_empty,
      String.append_assoc]
  · rw [text, hnew, hleft, hright, hmoved, htouched.tokenText?_eq]
    simp only [textBefore, textFrom, String.append_assoc]
  · have hsame' : u.isExposed parent = true := by
      rw [h.linked.isExposed_congr hu.linked habove fun q _ => htouched.tokenText?_eq q, hexposed]
    have hoffset := hframed.offset_eq fun q hq _ hne => hu.linked.tokenText?_above hsame' hq hne
    rw [hu.offset_root, Nat.zero_add] at hoffset
    rw [← hoffset]
    refine hrecast.offset_eq hu h hin (if_neg hne) fun c hc => hsame c fun hw => ?_
    exact hc (hw.trans (.of_under hunder))

/-- The text around a child, from the parent's side. -/
theorem textBefore_succ (hc : (t.children p)[index]? = some c) :
    t.textBefore p (index + 1) = t.textBefore p index ++ t.textOf c := by
  obtain ⟨hlt, rfl⟩ := List.getElem?_eq_some_iff.1 hc
  rw [textBefore, textBefore, List.take_succ_eq_append_getElem hlt, List.map_append,
    String.join_append, List.map_singleton, String.join_cons, String.join_nil,
    String.append_empty, String.append_assoc]

theorem textFrom_eq (hc : (t.children p)[index]? = some c) :
    t.textFrom p index = t.textOf c ++ t.textFrom p (index + 1) := by
  obtain ⟨hlt, rfl⟩ := List.getElem?_eq_some_iff.1 hc
  rw [textFrom, List.drop_eq_getElem_cons hlt, List.map_cons, String.join_cons, textFrom]

/-- Text on either side of a child. -/
theorem textBefore_append_beside (hc : (t.children p)[index]? = some c) (after : Bool)
    (text : String) :
    t.textBefore p (index + if after then 1 else 0) ++ text ++
        t.textFrom p (index + if after then 1 else 0) =
      t.textBefore p index ++ (if after then t.textOf c ++ text else text ++ t.textOf c) ++
        t.textFrom p (index + 1) := by
  cases after with
  | false =>
    rw [if_neg Bool.false_ne_true, if_neg Bool.false_ne_true, Nat.add_zero, textFrom_eq hc]
    simp only [String.append_assoc]
  | true =>
    rw [if_pos rfl, if_pos rfl, textBefore_succ hc]
    simp only [String.append_assoc]

theorem Linked.offset_of_child (h : t.Linked) (hc : (t.children p)[index]? = some c)
    (htoken : t.tokenText? p = none) :
    t.offset c = t.offset p + (t.textBefore p index).utf8ByteSize := by
  obtain ⟨hlt, rfl⟩ := List.getElem?_eq_some_iff.1 hc
  have hsplit : t.children p = (t.children p).take index ++
      (t.children p)[index] :: (t.children p).drop (index + 1) := by
    rw [← List.drop_eq_getElem_cons hlt, List.take_append_drop]
  rw [h.offset_of_split hsplit, textBefore, htoken, Option.getD_none, String.empty_append]

/-! The edits. -/

/-- The text of `u` is that of `t` with `piece` in place of `cut`; the cut is at byte `start` if it
is `clear` of tokens with something below them. -/
def Spliced (t u : Tree) (cut piece : String) (clear : Prop) (start : Nat) : Prop :=
  ∃ before behind, t.text = before ++ cut ++ behind ∧ u.text = before ++ piece ++ behind ∧
    (clear → before.utf8ByteSize = start)

/-- Where child number `index` begins, or where the children end. -/
def gapOffset (t : Tree) (parent : NodeId) (index : Nat) : Nat :=
  match (t.children parent)[index]? with
  | some c => t.offset c
  | none => t.offset parent + t.textLength parent

theorem Linked.gapOffset_eq (h : t.Linked) (hgrown : t.isOvergrown parent = false) (index : Nat) :
    t.gapOffset parent index = t.offset parent + (t.textBefore parent index).utf8ByteSize := by
  rw [gapOffset]
  cases hget : (t.children parent)[index]? with
  | none =>
    have hlength := List.getElem?_eq_none_iff.1 hget
    have hfrom : t.textFrom parent index = "" := by
      rw [textFrom, List.drop_eq_nil_of_le hlength, List.map_nil, String.join_nil]
    dsimp only
    rw [textLength_eq, h.textOf_eq_append parent index, hfrom, String.append_empty]
  | some c =>
    have hmem : t.children parent ≠ [] := List.ne_nil_of_mem (List.mem_of_getElem? hget)
    rw [isOvergrown, Bool.and_eq_false_iff, Bool.not_eq_false', List.isEmpty_iff, isToken,
      Option.isSome_eq_false_iff, Option.isNone_iff_eq_none] at hgrown
    exact h.offset_of_child hget (hgrown.resolve_right hmem)

theorem Sound.spliced_insert (h : t.Sound) (hchild : child < t.size)
    (hinsert : Tree.insert parent index child t = .ok () u) (hparent : t.Within parent t.root) :
    Spliced t u "" (t.textOf child) (t.isExposed parent = true ∧ t.isOvergrown parent = false)
      (t.gapOffset parent index) := by
  obtain ⟨above, below, hold, hnew, hoffset⟩ := h.exists_around_insert hchild hinsert hparent
  refine ⟨above ++ t.textBefore parent index, t.textFrom parent index ++ below, ?_, ?_,
    fun ⟨hexposed, hgrown⟩ => ?_⟩
  · simp only [hold, String.append_empty, String.append_assoc]
  · simp only [hnew, String.append_assoc]
  · rw [h.linked.gapOffset_eq hgrown, hoffset hexposed, String.utf8ByteSize_append]

/-- A change at one node shows at that node. -/
theorem Recast.spliced {ids : List NodeId} (h : Recast t u fun c => if c = x then ids else [c])
    (ht : t.Sound) (hu : u.Linked) (hx : t.Within x t.root) (hroot : x ≠ t.root) :
    Spliced t u (t.textOf x) (String.join (ids.map u.textOf)) (t.isExposed x = true)
      (t.offset x) := by
  obtain ⟨before, behind, hframed⟩ := ht.linked.exists_framed hx
  have hshown := hframed.shown_eq h hu fun c _ hc => if_neg fun (he : c = x) => hc (he ▸ .refl t c)
  rw [shown_of_eq (if_neg hroot.symm), shown, if_pos rfl, ← h.root_eq] at hshown
  refine ⟨before, behind, hframed.textOf_eq ht.linked, hshown, fun hexposed => ?_⟩
  have hoffset := hframed.offset_eq fun q hq _ hne => ht.linked.tokenText?_above hexposed hq hne
  rw [hoffset, ht.offset_root, Nat.zero_add]

/-- A change outside the tree does not show. -/
theorem Recast.text_eq {ids : List NodeId} (h : Recast t u fun c => if c = x then ids else [c])
    (ht : t.Sound) (hu : u.Linked) (hx : ¬ t.Within x t.root) : u.text = t.text := by
  rw [text, h.root_eq, text]
  refine h.textOf_of_untouched ht.linked hu ht.root_lt_size fun c hc _ => if_neg ?_
  rintro rfl
  exact hx hc

theorem Sound.spliced_remove (h : t.Sound) (hremove : Tree.remove id t = .ok i u)
    (hid : t.Within id t.root) :
    Spliced t u (t.textOf id) "" (t.isExposed id = true) (t.offset id) := by
  obtain ⟨_, -, hroot, -⟩ := remove_ok hremove
  exact (h.recast_remove hremove).spliced h (h.of_remove hremove).linked hid hroot

theorem Sound.spliced_replace (h : t.Sound) (hr : replacement < t.size)
    (hreplace : Tree.replace old replacement t = .ok () u) (hold : t.Within old t.root) :
    Spliced t u (t.textOf old) (t.textOf replacement) (t.isExposed old = true) (t.offset old) := by
  obtain ⟨hdetached, _, _, -, hremove, -⟩ := replace_ok hreplace
  obtain ⟨_, -, hroot, hattached, -⟩ := remove_ok hremove
  have hrecast := h.recast_replace hr hreplace
  have hu := (h.of_replace hr hreplace).linked
  -- the old node is not in the subtree that takes its place
  have hmoved : u.textOf replacement = t.textOf replacement := by
    refine hrecast.textOf_of_untouched h.linked hu hr fun c hc _ => if_neg ?_
    rintro rfl
    rw [h.isAttached_of_within hc, hdetached] at hattached
    cases hattached
  have hspliced := hrecast.spliced h hu hold hroot
  rwa [List.map_singleton, String.join_cons, String.join_nil, String.append_empty, hmoved]
    at hspliced

/-- Put in outside the tree, nothing shows. -/
theorem Sound.text_eq_of_insert (h : t.Sound) (hchild : child < t.size)
    (hinsert : Tree.insert parent index child t = .ok () u) (hparent : ¬ t.Within parent t.root) :
    u.text = t.text := by
  obtain ⟨-, hroot, -, -, -⟩ := insert_ok hinsert
  obtain ⟨htouched, hhome, -⟩ := h.touched_insert hchild hinsert
  have hunder : u.Under child parent := hhome
  rw [text, htouched.root_eq, text]
  refine h.textOf_of_insert hchild hinsert h.root_lt_size fun hw => ?_
  by_contra hne
  exact hparent ((within_of_parents (h.parent?_above_insert hinsert hchild)).1
    (hw.of_parent hunder hroot))

end PhpLint.Tree
