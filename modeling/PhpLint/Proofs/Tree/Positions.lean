import PhpLint.Proofs.Concrete.Green
import PhpLint.Proofs.Text.Bytes
import PhpLint.Proofs.Tree.Splicing
import PhpLint.Tree.Dump

/-! Where nodes stand in the text. A place is asked for in three ways: by climbing to the root, by
coming down from it as the dump does, and by laying out the tokens in order. The three agree as long
as no token has anything below it; the climb leaves out the text that such a token has of its own,
and the dump does not look below it. -/

namespace PhpLint

namespace Text

/-- A text is whole lines, to which its newlines belong, and a last line of its own. -/
theorem exists_lines (text : List Char) :
    ∃ lines last, text = lines ++ last ∧ (lines = [] ∨ lines.getLast? = some '\n') ∧
      '\n' ∉ last ∧ newlines text = lines.count '\n' ∧ lastLineLength text = last.length := by
  have hlast : '\n' ∉ (text.reverse.takeWhile (· != '\n')).reverse := fun hmem => by
    have hne := List.all_eq_true.1 List.all_takeWhile _ (List.mem_reverse.1 hmem)
    simp at hne
  have htext : text = (text.reverse.dropWhile (· != '\n')).reverse ++
      (text.reverse.takeWhile (· != '\n')).reverse := by
    rw [← List.reverse_append, List.takeWhile_append_dropWhile, List.reverse_reverse]
  refine ⟨_, _, htext, ?_, hlast, ?_, ?_⟩
  · have hhead := List.head?_dropWhile_not (· != '\n') text.reverse
    cases hdrop : text.reverse.dropWhile (· != '\n') with
    | nil => exact .inl rfl
    | cons c rest =>
      rw [hdrop] at hhead
      refine .inr ?_
      rw [List.getLast?_reverse, List.head?_cons]
      simpa using hhead
  · conv_lhs => rw [htext]
    rw [newlines, List.count_append, List.count_eq_zero_of_not_mem hlast, Nat.add_zero]
  · rw [lastLineLength, List.length_reverse]

end Text

namespace Tree

variable {t : Tree} {c id p q : NodeId} {n : Node}

/-! Nodes with no token above them. -/

def isExposed (t : Tree) (id : NodeId) : Bool := (t.ancestors id).all (!t.isToken ·)

theorem Linked.isExposed_of_under (h : t.Linked) (hu : t.Under c p) :
    t.isExposed c = (!t.isToken p && t.isExposed p) := by
  rw [isExposed, h.ancestors_of_under hu, List.all_cons, isExposed]

theorem Linked.tokenText?_above (h : t.Linked) (hexposed : t.isExposed id = true)
    (hq : t.Within id q) (hne : q ≠ id) : t.tokenText? q = none := by
  rcases hq.eq_or_under with he | ⟨p, hp, -⟩
  · exact absurd he.symm hne
  · have hmem := (List.mem_cons.1 ((h.mem_cons_ancestors hp.lt_size).2 hq)).resolve_left hne
    have hq := List.all_eq_true.1 hexposed q hmem
    rwa [isToken, Bool.not_eq_true', Option.isSome_eq_false_iff, Option.isNone_iff_eq_none] at hq

theorem Linked.isExposed_of_within (h : t.Linked) (hw : t.Within id p)
    (hexposed : t.isExposed id = true) : t.isExposed p = true := by
  induction hw with
  | refl => exact hexposed
  | tail _ hu ih =>
    rw [h.isExposed_of_under hu, Bool.and_eq_true] at ih
    exact ih.2

theorem Linked.not_exposed_below (h : t.Linked) (htoken : t.isToken p = true)
    (hu : t.Under c p) (hw : t.Within id c) : t.isExposed id = false := by
  by_contra hexposed
  have hc := h.isExposed_of_within hw (Bool.eq_true_of_not_eq_false hexposed)
  rw [h.isExposed_of_under hu, htoken] at hc
  cases hc

/-- A tree whose tokens are leaves has all its nodes in the open. -/
theorem Bare.isExposed (hb : t.Bare) (h : t.Linked) (id : NodeId) : t.isExposed id = true := by
  refine List.all_eq_true.2 fun q hq => ?_
  cases hp : t.parent? id with
  | none =>
    rw [ancestors_of_parent?_eq_none hp] at hq
    cases hq
  | some p =>
    rw [h.ancestors_of_under hp, h.mem_cons_ancestors (h.parent_lt_size hp)] at hq
    obtain ⟨c, -, hc⟩ : ∃ c, t.Within id c ∧ t.Under c q :=
      Relation.TransGen.tail'_iff.1 (Relation.TransGen.head' (r := t.Under) hp hq)
    cases htoken : t.isToken q with
    | false => rfl
    | true =>
      have hmem := h.mem_children.2 hc
      rw [hb q htoken] at hmem
      cases hmem

/-! The place of one node. -/

/-- The range of a node: it falls between characters, the text there is that of the node, which is
that of its tokens in order, and the location counts the lines before it and the characters of the
line it begins in. -/
structure Agrees (t : Tree) (id : NodeId) : Prop where
  boundary : Text.Boundary t.text.toList (t.offset id)
  slice_eq : Text.slice t.text.toList (t.offset id) (t.offset id + t.textLength id) =
    (t.textOf id).toList
  textLength_eq : t.textLength id = (t.textOf id).utf8ByteSize
  textOf_eq : t.textOf id = String.join ((t.preorder id).filterMap t.tokenText?)
  exists_lines : ∃ lines last behind, t.text.toList = lines ++ last ++ behind ∧
    Text.byteLength (lines ++ last) = t.offset id ∧
    (lines = [] ∨ lines.getLast? = some '\n') ∧ '\n' ∉ last ∧
    t.location id = ⟨lines.count '\n' + 1, last.length + 1⟩

theorem Linked.textOf_eq_join (h : t.Linked) (hid : id < t.size) :
    t.textOf id = String.join ((t.preorder id).filterMap t.tokenText?) := by
  obtain ⟨n, hn, rfl⟩ := h.exists_holds hid
  rw [h.preorder_eq_ids hn, filterMap_tokenText?_ids hn, textOf, h.node_eq hn, Node.text_eq_join]

theorem Sound.exists_before (h : t.Sound) (hid : t.Within id t.root)
    (hexposed : t.isExposed id = true) :
    ∃ before behind, t.text = before ++ t.textOf id ++ behind ∧
      t.offset id = before.utf8ByteSize := by
  obtain ⟨before, behind, hframed⟩ := h.linked.exists_framed hid
  have hoffset := hframed.offset_eq fun q hq _ hne => h.linked.tokenText?_above hexposed hq hne
  rw [h.offset_root, Nat.zero_add] at hoffset
  exact ⟨before, behind, hframed.textOf_eq h.linked, hoffset⟩

theorem Sound.agrees (h : t.Sound) (hid : t.Within id t.root) (hexposed : t.isExposed id = true) :
    Agrees t id := by
  obtain ⟨before, behind, htext, hoffset⟩ := h.exists_before hid hexposed
  have hchars : t.text.toList = before.toList ++ ((t.textOf id).toList ++ behind.toList) := by
    rw [htext, String.toList_append, String.toList_append, List.append_assoc]
  have hbefore : t.offset id = Text.byteLength before.toList := by
    rw [hoffset, Text.byteLength_toList]
  have hlength : t.textLength id = Text.byteLength (t.textOf id).toList := by
    rw [textLength_eq, Text.byteLength_toList]
  obtain ⟨lines, last, hlines, hend, hlast, hnewlines, hcolumn⟩ := Text.exists_lines before.toList
  refine ⟨⟨_, _, hchars, hbefore.symm⟩, ?_, t.textLength_eq id,
    h.linked.textOf_eq_join (hid.lt_size h.root_lt_size),
    lines, last, (t.textOf id).toList ++ behind.toList, ?_, ?_, hend, hlast, ?_⟩
  · rw [hchars, hbefore, hlength, Text.slice_byteLength]
  · rw [hchars, hlines]
  · rw [← hlines, hbefore]
  · rw [location, hchars, hbefore, Text.takeBytes, Text.splitBytes_byteLength, ← hnewlines,
      ← hcolumn]

/-! The dump. -/

/-- The line of a node, indented by the number of nodes above it: its kind, the range that climbing
gives, and the text of a token in quotes. -/
def dumpLine (t : Tree) (id : NodeId) : String :=
  (t.node id).dumpHead (t.ancestors id).length (t.offset id) ++
    ((t.tokenText? id).elim "" fun text => " " ++ Text.quoted text) ++ "\n"

/-- The lines for a subtree. -/
def dumpLines (t : Tree) (ids : List NodeId) : String :=
  String.join ((ids.filter t.isExposed).map t.dumpLine)

theorem dumpLines_append (t : Tree) (a b : List NodeId) :
    t.dumpLines (a ++ b) = t.dumpLines a ++ t.dumpLines b := by
  rw [dumpLines, List.filter_append, List.map_append, String.join_append, dumpLines, dumpLines]

theorem dumpLines_cons_of_exposed (hid : t.isExposed id = true) (ids : List NodeId) :
    t.dumpLines (id :: ids) = t.dumpLine id ++ t.dumpLines ids := by
  rw [dumpLines, List.filter_cons_of_pos hid, List.map_cons, String.join_cons, dumpLines]

theorem Linked.dumpLines_below_token (h : t.Linked) (hn : Slots.Holds t.slots n)
    (htoken : n.isToken = true) : t.dumpLines (n.children.flatMap Node.ids) = "" := by
  have hnone : (n.children.flatMap Node.ids).filter t.isExposed = [] := by
    refine List.filter_eq_nil_iff.2 fun x hx => ?_
    obtain ⟨c, hc, hx⟩ := List.mem_flatMap.1 hx
    rw [h.not_exposed_below ((isToken_of_holds hn).trans htoken) (h.under_of_mem hn hc)
      (h.within_of_mem_ids (hn.of_mem hc) hx)]
    exact Bool.false_ne_true
  rw [dumpLines, hnone]
  rfl

/-- Coming down from a node, the offsets handed on are those that climbing gives. -/
theorem Linked.dump_of_holds (h : t.Linked) (hn : Slots.Holds t.slots n)
    (hexposed : t.isExposed n.id = true) :
    n.dump (t.ancestors n.id).length (t.offset n.id) = t.dumpLines n.ids := by
  induction n using Node.induction with
  | mk id kind token children ih =>
    have hnode : t.node id = ⟨id, kind, token, children⟩ := h.node_eq hn
    have htoken : t.tokenText? id = token := hn.text_eq
    have hlist : t.children id = children.map Node.id := children_of_holds hn
    rw [Node.ids_eq, dumpLines_cons_of_exposed hexposed, dumpLine, hnode, htoken]
    cases token with
    | some text =>
      have hbelow := h.dumpLines_below_token hn rfl
      dsimp only at hbelow ⊢
      rw [hbelow, String.append_empty, Node.dump, Option.elim_some]
      simp only [String.append_assoc]
    | none =>
      have hopen : t.isToken id = false := by rw [isToken, htoken]; rfl
      have hall : ∀ left right, children = left ++ right →
          Node.dumpAll ((t.ancestors id).length + 1)
            (t.offset id + (String.join ((left.map Node.id).map t.textOf)).utf8ByteSize) right =
              t.dumpLines (right.flatMap Node.ids) := by
        intro left right
        induction right generalizing left with
        | nil => exact fun _ => rfl
        | cons c right ihr =>
          intro hsplit
          have hmem : c ∈ children := hsplit ▸ List.mem_append_right _ List.mem_cons_self
          have hc := hn.of_mem hmem
          have hunder : t.Under c.id id := h.under_of_mem hn hmem
          have hdepth : (t.ancestors c.id).length = (t.ancestors id).length + 1 := by
            rw [h.ancestors_of_under hunder, List.length_cons]
          have hoffset : t.offset c.id = t.offset id +
              (String.join ((left.map Node.id).map t.textOf)).utf8ByteSize :=
            h.offset_of_split (by rw [hlist, hsplit, List.map_append, List.map_cons])
          have hrest := ihr (left ++ [c]) (by rw [hsplit, List.append_assoc, List.singleton_append])
          have hlength : c.textLength = (t.textOf c.id).utf8ByteSize := by
            rw [textOf, h.node_eq hc, c.textLength_eq]
          have hshown := ih c hmem hc (by rw [h.isExposed_of_under hunder, hopen, hexposed]; rfl)
          rw [hdepth, hoffset] at hshown
          rw [Node.dumpAll, hshown, List.flatMap_cons, dumpLines_append, ← hrest, hlength]
          rw [List.map_append, List.map_append, String.join_append, String.utf8ByteSize_append,
            Nat.add_assoc]
          simp only [List.map_cons, List.map_nil, String.join_cons, String.join_nil,
            String.append_empty]
      have hchildren := hall [] children rfl
      rw [List.map_nil, List.map_nil, String.join_nil, String.utf8ByteSize_empty,
        Nat.add_zero (t.offset id)] at hchildren
      dsimp only
      rw [Node.dump, hchildren, Option.elim_none, String.append_empty]

theorem Sound.dump_eq (h : t.Sound) : t.dump = t.dumpLines (t.preorder t.root) := by
  have hholds := h.linked.holds_node h.root_lt_size
  have habove : t.ancestors t.root = [] := ancestors_of_parent?_eq_none h.parent?_root
  have hexposed : t.isExposed t.root = true := by rw [isExposed, habove]; rfl
  have hdump := h.linked.dump_of_holds hholds (by rwa [id_node])
  have hids := h.linked.preorder_eq_ids hholds
  rw [id_node] at hdump hids
  rw [h.offset_root, habove, List.length_nil] at hdump
  rw [dump, rootNode, hdump, hids]

/-- Of every tree a program can get hold of, the nodes that stand in it with no token above them are
where offset, length and location say, and the dump has one line for each of them, in order, with
that range. If nothing is ever put in under a token this is true of all its nodes. -/
theorem Run.positions_agree {admits : Tree → NodeId → Prop} (h : Run admits t) :
    (∀ id, t.Within id t.root → t.isExposed id = true → Agrees t id) ∧
      t.dump = t.dumpLines (t.preorder t.root) ∧
      ((∀ t p, admits t p → t.isToken p = false) → ∀ id, t.isExposed id = true) :=
  ⟨fun _ => h.sound.agrees, h.sound.dump_eq,
    fun hadmits id => (h.bare hadmits).isExposed h.sound.linked id⟩

/-- A word and a newline, and on the second line a block of two words. -/
def twoLines : Tree :=
  ofEvents [.start .sourceFile, .token .ident "é", .token .whitespace "\n", .start .block,
    .token .ident "ü", .token .ident "b", .finish, .finish]

/-- The block taken out and put back behind the newline: its second word is five bytes and one line
and one character into the text. -/
theorem agrees_of_block_put_back :
    Agrees (left (Tree.insert 5 2 4) (left (Tree.remove 4) twoLines)) 3 ∧
      (left (Tree.insert 5 2 4) (left (Tree.remove 4) twoLines)).offset 3 = 5 ∧
      (left (Tree.insert 5 2 4) (left (Tree.remove 4) twoLines)).location 3 = ⟨2, 2⟩ := by
  have hrun : Run (fun t p => t.isToken p = false)
      (left (Tree.insert 5 2 4) (left (Tree.remove 4) twoLines)) :=
    .insert 2 (.remove 4 (.built _)) (by decide) (by decide)
  obtain ⟨hagrees, -, hexposed⟩ := hrun.positions_agree
  have hwithin : Within (left (Tree.insert 5 2 4) (left (Tree.remove 4) twoLines)) 3 5 :=
    (hrun.sound.linked.mem_preorder (by decide)).1 (by decide)
  exact ⟨hagrees 3 hwithin (hexposed (fun _ _ hp => hp) 3), by decide, by decide⟩

/-- A file with three words. -/
def wordsInARow : Tree :=
  ofEvents [.start .sourceFile, .token .ident "é", .token .ident "b", .token .ident "c", .finish]

/-- A block put in under the word before it: the text at the range of the block is that word. Two
words put in under the one before them: the second is said to begin inside a character. -/
theorem exists_run_slice_ne :
    (∃ t, Run (fun _ _ => True) t ∧ t.Within 2 t.root ∧ t.textOf 2 = "b" ∧
      Text.slice t.text.toList (t.offset 2) (t.offset 2 + t.textLength 2) = "a".toList) ∧
    ∃ t, Run (fun _ _ => True) t ∧ t.Within 2 t.root ∧
      ¬ Text.Boundary t.text.toList (t.offset 2) := by
  have hblock : Run (fun _ _ => True) (left (Tree.insert 0 0 2) (left (Tree.remove 2) twoWords)) :=
    .insert 0 (.remove 2 (.built _)) trivial (by decide)
  have hwords : Run (fun _ _ => True) (left (Tree.insert 0 1 2) (left (Tree.insert 0 0 1)
      (left (Tree.remove 2) (left (Tree.remove 1) wordsInARow)))) :=
    .insert 1 (.insert 0 (.remove 2 (.remove 1 (.built _))) trivial (by decide)) trivial (by decide)
  refine ⟨⟨_, hblock, (hblock.sound.linked.mem_preorder (by decide)).1 (by decide), by decide,
      by decide⟩,
    ⟨_, hwords, (hwords.sound.linked.mem_preorder (by decide)).1 (by decide), ?_⟩⟩
  have htext : (left (Tree.insert 0 1 2) (left (Tree.insert 0 0 1)
      (left (Tree.remove 2) (left (Tree.remove 1) wordsInARow)))).text.toList = ['é', 'b', 'c'] := by
    decide
  have hoffset : (left (Tree.insert 0 1 2) (left (Tree.insert 0 0 1)
      (left (Tree.remove 2) (left (Tree.remove 1) wordsInARow)))).offset 2 = 1 := by
    decide
  rw [htext, hoffset]
  rintro ⟨before, behind, hsplit, hlength⟩
  cases before with
  | nil => cases hlength
  | cons c before =>
    obtain ⟨rfl, -⟩ := List.cons.inj hsplit
    have hsize : 'é'.utf8Size = 2 := by decide
    rw [Text.byteLength, hsize] at hlength
    omega

end Tree

end PhpLint
