import PhpLint.Proofs.Fix.Splices
import PhpLint.Proofs.Tree.Spliced

/-! Edits show in the text as splices, those of the tree and those of a plan: a fragment that is put
in beside a node stands directly before or behind the text of that node. -/

namespace PhpLint

variable {t u grown : Tree} {anchor p r id : NodeId} {index : Nat} {grammar : Grammar}

namespace Tree

/-- A tree that was only grown around has the texts and the places it had. -/
structure Extends (t u : Tree) : Prop where
  text_eq : u.text = t.text
  children_eq : ∀ n < t.size, u.children n = t.children n
  textOf_eq : ∀ n < t.size, u.textOf n = t.textOf n
  textBefore_eq : ∀ n < t.size, ∀ i, u.textBefore n i = t.textBefore n i
  within_iff : ∀ n < t.size, ∀ q, u.Within n q ↔ t.Within n q
  isExposed_eq : ∀ n < t.size, u.isExposed n = t.isExposed n
  offset_eq : ∀ n, t.Within n t.root → u.offset n = t.offset n

theorem Grafted.extends {ns : List Node} {ids : List NodeId} (g : Grafted t grown ns ids)
    (ht : t.Sound) (hg : grown.Sound) (hrecast : Recast t grown fun c => [c]) :
    Extends t grown := by
  have htextOf : ∀ n < t.size, grown.textOf n = t.textOf n := fun n hn =>
    hrecast.textOf_of_untouched ht.linked g.linked hn fun _ _ _ => rfl
  have hchildren : ∀ n < t.size, grown.children n = t.children n := fun n hn => by
    rw [children, g.slot_eq n hn, children]
  have hparent : ∀ n < t.size, ∀ q, t.Within n q → grown.parent? q = t.parent? q :=
    fun n hn q hq => by rw [parent?, g.slot_eq q (ht.linked.lt_size_of_within hq hn), parent?]
  refine ⟨?_, hchildren, htextOf, fun n hn i => ?_, fun n hn q => within_of_parents (hparent n hn),
    fun n hn => ?_, fun n hn => ?_⟩
  · rw [text, g.root_eq, htextOf _ ht.root_lt_size, text]
  · have hmap : ((t.children n).take i).map grown.textOf = ((t.children n).take i).map t.textOf :=
      List.map_congr_left fun c hc =>
        htextOf c (ht.linked.lt_size_of_mem (List.mem_of_mem_take hc))
    rw [textBefore, hchildren n hn, hmap, tokenText?, g.slot_eq n hn, textBefore, tokenText?]
  · exact ht.linked.isExposed_congr hg.linked (hparent n hn) fun q hq =>
      hrecast.tokenText?_eq q (ht.linked.lt_size_of_within hq hn)
  · exact hrecast.offset_eq ht hg hn rfl fun _ _ => rfl

end Tree

namespace Edit

open PhpLint.Tree

variable {after : Bool} {kind : FragmentKind} {text : String}

/-- What is put in beside a node is text beside its text. -/
theorem text_of_insertSibling (ht : t.Sound)
    (h : Edit.apply grammar t (.insertSibling anchor after kind text) = .ok u)
    (hanchor : t.Within anchor t.root) : ∃ fragment before behind,
      Fragment.parse grammar text kind = .ok fragment ∧
      t.text = before ++ t.textOf anchor ++ behind ∧
      u.text = before ++ (if after then t.textOf anchor ++ fragment.tree.textOf fragment.node
        else fragment.tree.textOf fragment.node ++ t.textOf anchor) ++ behind ∧
      (t.isExposed anchor = true → before.utf8ByteSize = t.offset anchor) := by
  rw [Edit.apply] at h
  split at h
  · cases h
  split at h
  · cases h
  next p hp =>
    have hunder : t.Under anchor p := hp
    obtain ⟨⟨grown, r⟩, hgraft, hdone⟩ := exists_of_bind_eq_ok h
    obtain ⟨fragment, hparse, hg, g, hgrow, htext⟩ := exists_grafted ht hgraft
    obtain ⟨_, hinsert⟩ := exists_of_structurally hdone
    have hl := ht.linked
    have hsize := hl.parent_lt_size hunder
    have hextends := g.extends ht hg hgrow
    have hin : t.Within p t.root := ht.within_root_of_under hanchor hunder
    have hin' : grown.Within p grown.root := by
      rw [g.root_eq]
      exact (hextends.within_iff p hsize _).2 hin
    have hplace := hl.getElem?_index hunder
    have hplace' : (grown.children p)[t.index anchor]? = some anchor := by
      rw [hextends.children_eq p hsize, hplace]
    have hself : grown.textOf anchor = t.textOf anchor := hextends.textOf_eq anchor hunder.lt_size
    have hfront := hextends.textBefore_eq p hsize (t.index anchor)
    obtain ⟨above, below, hold, hnew, hoffset⟩ :=
      hg.exists_around_insert (g.loose.lt_size r List.mem_cons_self) hinsert hin'
    rw [hextends.text_eq] at hold
    rw [htext] at hnew
    refine ⟨fragment, above ++ t.textBefore p (t.index anchor),
      grown.textFrom p (t.index anchor + 1) ++ below, hparse, ?_, ?_, fun hexposed => ?_⟩
    · have hnothing := textBefore_append_beside hplace' after ""
      rw [String.append_empty, String.append_empty, String.empty_append, ite_self, hself, hfront]
        at hnothing
      rw [hold, hnothing]
      simp only [String.append_assoc]
    · have hbeside := textBefore_append_beside hplace' after (fragment.tree.textOf fragment.node)
      rw [hself, hfront] at hbeside
      rw [hnew, hbeside]
      simp only [String.append_assoc]
    · rw [hl.isExposed_of_under hunder, Bool.and_eq_true, Bool.not_eq_true', isToken,
        Option.isSome_eq_false_iff, Option.isNone_iff_eq_none] at hexposed
      have habove := hoffset ((hextends.isExposed_eq p hsize).trans hexposed.2)
      rw [hextends.offset_eq p hin] at habove
      rw [hl.offset_of_child hplace hexposed.1, habove, String.utf8ByteSize_append]

end Edit

namespace Tree

/-- The edits of a tree as its text shows them. What is put in or taken out within the tree is put in
or cut out at the offset of its place, as far as no token has anything below it; what is done outside
the tree does not show. -/
structure EditsSplice (grammar : Grammar) (t : Tree) : Prop where
  textLength_eq : ∀ id, t.textLength id = (t.textOf id).utf8ByteSize
  insert : ∀ {parent index child u}, child < t.size →
    Tree.insert parent index child t = .ok () u → t.Within parent t.root →
    Spliced t u "" (t.textOf child) (t.isExposed parent = true ∧ t.isOvergrown parent = false)
      (t.gapOffset parent index)
  remove : ∀ {id i u}, Tree.remove id t = .ok i u → t.Within id t.root →
    Spliced t u (t.textOf id) "" (t.isExposed id = true) (t.offset id)
  replace : ∀ {old replacement u}, replacement < t.size →
    Tree.replace old replacement t = .ok () u → t.Within old t.root →
    Spliced t u (t.textOf old) (t.textOf replacement) (t.isExposed old = true) (t.offset old)
  insertSibling : ∀ {anchor after kind text u},
    Edit.apply grammar t (.insertSibling anchor after kind text) = .ok u →
    t.Within anchor t.root → ∃ fragment before behind,
      Fragment.parse grammar text kind = .ok fragment ∧
      t.text = before ++ t.textOf anchor ++ behind ∧
      u.text = before ++ (if after then t.textOf anchor ++ fragment.tree.textOf fragment.node
        else fragment.tree.textOf fragment.node ++ t.textOf anchor) ++ behind ∧
      (t.isExposed anchor = true → before.utf8ByteSize = t.offset anchor)
  text_eq_of_insert : ∀ {parent index child u}, child < t.size →
    Tree.insert parent index child t = .ok () u → ¬ t.Within parent t.root → u.text = t.text
  text_eq_of_remove : ∀ {id i u}, Tree.remove id t = .ok i u → ¬ t.Within id t.root →
    u.text = t.text
  text_eq_of_replace : ∀ {old replacement u}, replacement < t.size →
    Tree.replace old replacement t = .ok () u → ¬ t.Within old t.root → u.text = t.text

theorem Run.editsSplice {admits : Tree → NodeId → Prop} (grammar : Grammar) (h : Run admits t) :
    EditsSplice grammar t ∧ ((∀ t p, admits t p → t.isToken p = false) →
      ∀ id, t.isExposed id = true ∧ t.isOvergrown id = false) := by
  have ht := h.sound
  refine ⟨?_, fun hadmits id =>
    ⟨(h.bare hadmits).isExposed ht.linked id, (h.bare hadmits).isOvergrown_eq_false id⟩⟩
  exact {
    textLength_eq := t.textLength_eq
    insert := ht.spliced_insert
    remove := ht.spliced_remove
    replace := ht.spliced_replace
    insertSibling := Edit.text_of_insertSibling ht
    text_eq_of_insert := ht.text_eq_of_insert
    text_eq_of_remove := fun hremove =>
      (ht.recast_remove hremove).text_eq ht (ht.of_remove hremove).linked
    text_eq_of_replace := fun hr hreplace =>
      (ht.recast_replace hr hreplace).text_eq ht (ht.of_replace hr hreplace).linked }

/-- A semicolon behind the word in the block. -/
theorem text_of_semicolon_behind_word :
    ∃ u, Edit.apply (fun _ => none) twoWords (.insertSibling 1 true .token ";") = .ok u ∧
      u.text = "ab;" ∧ ∃ fragment before behind,
        Fragment.parse (fun _ => none) ";" .token = .ok fragment ∧
        twoWords.text = before ++ twoWords.textOf 1 ++ behind ∧
        u.text = before ++ (twoWords.textOf 1 ++ fragment.tree.textOf fragment.node) ++ behind ∧
        before.utf8ByteSize = 1 := by
  have hrun : Run (fun t p => t.isToken p = false) twoWords := .built _
  have hdone : (Edit.apply (fun _ => none) twoWords
      (.insertSibling 1 true .token ";")).toOption.any (·.text == "ab;") = true := by decide +kernel
  cases happly : Edit.apply (fun _ => none) twoWords (.insertSibling 1 true .token ";") with
  | error e =>
    rw [happly] at hdone
    cases hdone
  | ok u =>
    rw [happly] at hdone
    obtain ⟨hsplice, hexposed⟩ := hrun.editsSplice fun _ => none
    have hwithin : twoWords.Within 1 twoWords.root :=
      (hrun.sound.linked.mem_preorder (by decide)).1 (by decide)
    obtain ⟨fragment, before, behind, hparse, hold, hnew, hplace⟩ :=
      hsplice.insertSibling happly hwithin
    refine ⟨u, rfl, eq_of_beq hdone, fragment, before, behind, hparse, hold, hnew, ?_⟩
    rw [hplace (hexposed (fun _ _ hp => hp) 1).1]
    decide

/-- A closed file, and a block after it that is the root. -/
def fileLeftOut : Tree :=
  ofEvents [.start .sourceFile, .token .ident "a", .finish, .start .block, .finish]

/-- A block below a word is taken out: its range is that of the word, but it is the block that goes.
A word is put into a file that the builder left outside the tree: the file counts as attached, and
the text does not change. -/
theorem exists_run_text_ne_spliced :
    (∃ t u i, Run (fun _ _ => True) t ∧ t.Within 2 t.root ∧ Tree.remove 2 t = .ok i u ∧
      u.text.toList ≠ Text.takeBytes (t.offset 2) t.text.toList ++
        Text.dropBytes (t.offset 2 + t.textLength 2) t.text.toList) ∧
    ∃ t u, Run (fun _ _ => True) t ∧ Tree.insert 1 0 3 t = .ok () u ∧ t.textOf 3 = "b" ∧
      t.text = "" ∧ u.text = "" := by
  have hblock : Run (fun _ _ => True) (left (Tree.insert 0 0 2) (left (Tree.remove 2) twoWords)) :=
    .insert 0 (.remove 2 (.built _)) trivial (by decide)
  have hfile : Run (fun _ _ => True) (fileLeftOut.graft (twoWords.node 1)).1 :=
    .graft (.built _) (.built _) (by decide)
  refine ⟨⟨_, _, _, hblock, (hblock.sound.linked.mem_preorder (by decide)).1 (by decide),
      remove_eq _ 2, by decide⟩,
    ⟨_, _, hfile, insert_eq _ 1 0 3, by decide, by decide, by decide⟩⟩

end Tree

end PhpLint
