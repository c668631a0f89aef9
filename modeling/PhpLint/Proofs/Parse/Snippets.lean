import PhpLint.Proofs.Concrete.Untagged
import PhpLint.Proofs.Parse.Lossless

/-! A snippet is lowered as the file it would be behind an open tag: the tree of the file has the
tag and one space more, and its errors stand behind these. -/

namespace PhpLint

/-- The root of a file that begins with an open tag. Apart from the tag all begins at the base or
behind it. -/
structure Concrete.Tagged (base : Nat) (root tag : Concrete) (pieces : List Concrete) : Prop where
  program : root.kind = "program"
  children : root.children = tag :: pieces
  kind : tag.kind = "php_tag"
  start : tag.start = 0
  stop : tag.stop = 5
  present : tag.head.missing = false ∧ tag.head.error = false
  nested : tag.Nested
  beyond : ∀ x ∈ tag.children ++ pieces, x.Beyond base

/-- Nothing stands inside the tag. -/
theorem Concrete.Tagged.children_tag {base : Nat} {root tag : Concrete} {pieces : List Concrete}
    (h : root.Tagged base tag pieces) (hbase : 5 < base) : tag.children = [] := by
  refine List.eq_nil_iff_forall_not_mem.2 fun x hx => ?_
  have hbeyond := h.beyond x (List.mem_append_left _ hx)
  have hle := hbeyond.base_le.trans hbeyond.start_le_stop
  have hinside := (h.nested.within hx).2
  rw [h.stop] at hinside
  omega

/-- The tree of a snippet, out of that of the file with an open tag and a space before it. -/
def Green.untagged? : Green → Option Green
  | .node kind (.token .openTag _ :: gs) => (unspaced? gs).map (.node kind)
  | _ => none

namespace Lower

open Green

variable {s : Source} {root tag : Concrete} {pieces : List Concrete}

/-- A run from the front makes a token of the tag. -/
theorem lower_tag_whole (h : root.Tagged s.base tag pieces) (hbase : 5 < s.base) (place : Place)
    {c : Cursor} {front rest : List Char} (hpos : c.pos = 0) (hrest : c.rest = front ++ rest)
    (hfront : Text.byteLength front = 5) : lower s.whole place .plain tag c =
      ([.token .openTag (.ofList front)], { c with pos := 5, rest }) := by
  have hchildren := h.children_tag hbase
  obtain ⟨-, -, hkind, hstart, hstop, ⟨hmissing, herror⟩, -, -⟩ := h
  obtain ⟨⟨kind, named, missing, error, faulty, start, stop, field⟩, children⟩ := tag
  cases hchildren
  cases hkind
  cases hstart
  cases hstop
  cases hmissing
  cases herror
  have hcut : Text.splitBytes 5 (front ++ rest) = (front, rest) := by
    rw [← hfront, Text.splitBytes_byteLength]
  obtain ⟨pos, text, errors, fault⟩ := c
  cases hpos
  cases hrest
  have herrors : errorsBelow s.whole
      ⟨⟨"php_tag", named, false, false, faulty, 0, 5, field⟩, []⟩ = [] := by
    cases faulty <;> rfl
  rw [lower, if_neg Bool.false_ne_true, if_neg (by simp [Source.whole]),
    if_neg Bool.false_ne_true]
  change leaf s.whole .openTag _ _ = _
  rw [leaf_eq_tokenTo, herrors, ite_self]
  change ([] ++ (tokenTo .openTag 5 ⟨0, front ++ rest, errors ++ [], fault⟩).1,
    (tokenTo .openTag 5 ⟨0, front ++ rest, errors ++ [], fault⟩).2) = _
  rw [List.append_nil]
  change ([Green.token .openTag (.ofList (Text.splitBytes 5 (front ++ rest)).1)],
    (⟨5, (Text.splitBytes 5 (front ++ rest)).2, errors, fault⟩ : Cursor)) = _
  rw [hcut]

/-- A run from behind the tag passes it over. -/
theorem lower_tag (h : root.Tagged s.base tag pieces) (hbase : 5 < s.base) (place : Place)
    (c : Cursor) : lower s place .plain tag c = ([], c) := by
  obtain ⟨-, -, -, -, hstop, ⟨hmissing, -⟩, -, -⟩ := h
  obtain ⟨head, children⟩ := tag
  rw [lower, if_neg (by rw [hmissing]; decide), if_pos (.inr (hstop.trans_le hbase.le))]
  rfl

/-- The pieces behind the tag. -/
def othersOf (s : Source) (root tag : Concrete) (pieces : List Concrete) : Lower (List Green) :=
  lowerAll s root.head (fun _ => .plain) 1 (some tag.kind) (false || Treatment.isNameKind tag.kind)
    pieces

theorem rootPieces_tagged {base : Nat} (h : root.Tagged base tag pieces) (s : Source) (c : Cursor) :
    rootPieces s root c =
      let first := lower s (placeIn root.head none false tag pieces) .plain tag c
      let others := othersOf s root tag pieces first.2
      (first.1 ++ others.1, others.2) := by
  rw [rootPieces, if_pos h.program, h.children, lowerAll]
  rfl

end Lower

namespace Parse

open Lower

variable {root tag : Concrete} {pieces : List Concrete}

/-- A text behind an open tag, the tag and the space left out. -/
def behindTag (text : String) : Source := ⟨(tagBefore ++ text).toList, tagBefore.utf8ByteSize⟩

theorem base_behindTag (text : String) : (behindTag text).base = 6 := by
  change tagBefore.utf8ByteSize = 6
  decide +kernel

theorem text_behindTag (text : String) :
    (behindTag text).text = "<?php".toList ++ ' ' :: text.toList := by
  rw [behindTag, String.toList_append]
  rfl

theorem start_whole_behindTag (text : String) :
    start (behindTag text).whole = ⟨0, "<?php".toList ++ ' ' :: text.toList, [], none⟩ := by
  rw [start, Source.whole, text_behindTag, Text.dropBytes, Text.splitBytes]

theorem start_behindTag (text : String) :
    start (behindTag text) = ⟨6, text.toList, [], none⟩ := by
  rw [start, base_behindTag, text_behindTag]
  exact congrArg (Cursor.mk 6 · [] none) (Text.dropBytes_byteLength "<?php ".toList text.toList)

/-- Behind the tag the run over the file lags one space behind that over the snippet. -/
theorem rootPieces_behindTag (h : root.Tagged 6 tag pieces) (text : String) :
    ∃ gs c, rootPieces (behindTag text).whole root (start (behindTag text).whole) =
        (.token .openTag "<?php" :: gs, c) ∧
      UpToSpace (behindTag text) (gs, c)
        (rootPieces (behindTag text) root (start (behindTag text))) := by
  have hbase := base_behindTag text
  have htagged : root.Tagged (behindTag text).base tag pieces := hbase.symm ▸ h
  have hlags : Lags (behindTag text) ⟨5, ' ' :: text.toList, [], none⟩
      ⟨6, text.toList, [], none⟩ := ⟨hbase.symm, hbase.symm, rfl, rfl, rfl⟩
  have hothers : Parallel (behindTag text) (othersOf (behindTag text).whole root tag pieces)
      (othersOf (behindTag text) root tag pieces) := parallel_lowerAll (fun x hx =>
    parallel_lower (htagged.beyond x (List.mem_append_right _ hx))) _ _ _ _ _
  rw [rootPieces_tagged h, rootPieces_tagged h, lower_tag htagged (by omega), start_behindTag,
    start_whole_behindTag, lower_tag_whole htagged (by omega) _ rfl rfl rfl]
  exact ⟨_, _, rfl, hothers.upToSpace _ _ hlags⟩

/-- A snippet is parsed as the file behind an open tag: with the same fault, or to the same tree but
for the tag and a space behind it, and with the same errors, each as much earlier as these are
long. -/
theorem snippet_eq_untagged_file (grammar : Grammar) (text : String)
    (h : root.Tagged tagBefore.utf8ByteSize tag pieces)
    (hg : grammar (tagBefore ++ text) = some root) :
    (∃ fault, file grammar (tagBefore ++ text) = .error fault ∧
      snippet grammar text = .error fault) ∨
    ∃ p q, file grammar (tagBefore ++ text) = .ok p ∧ snippet grammar text = .ok q ∧
      p.tree.rootNode.green.untagged? = some q.tree.rootNode.green ∧
      p.errors = q.errors.map (.later tagBefore.utf8ByteSize) := by
  have hbase : tagBefore.utf8ByteSize = 6 := base_behindTag text
  have hlength : (behindTag text).base ≤ Text.byteLength (tagBefore ++ text).toList := by
    rw [Text.byteLength_toList, String.utf8ByteSize_append]
    exact Nat.le_add_right ..
  obtain ⟨gs, c, hfront, hpieces⟩ := rootPieces_behindTag (hbase ▸ h) text
  obtain ⟨hspace, hlevel⟩ := hpieces.joins (joins_gap hlength)
  have hfile : file grammar (tagBefore ++ text) = _ := after_eq hg
    (lowerRoot_eq (behindTag text).whole root _ (start (behindTag text).whole))
  have hsnippet : snippet grammar text = _ := after_eq hg
    (lowerRoot_eq (behindTag text) root _ (start (behindTag text)))
  rw [hfront] at hfile
  dsimp only at hfile
  rw [hlevel.fault_eq] at hfile
  rw [hfile, hsnippet]
  split
  next fault hfault => exact .inl ⟨fault, rfl, rfl⟩
  next hfault =>
    refine .inr ⟨_, _, rfl, rfl, ?_, hlevel.errors_eq⟩
    rw [Green.green_rootNode, Green.green_rootNode, List.cons_append, Green.untagged?]
    exact congrArg (Option.map (Green.node .sourceFile)) hspace

/-- A number behind two blanks, with no semicolon behind it. -/
def openNumber : Concrete :=
  ⟨⟨"program", true, false, false, true, 0, 8, none⟩,
    [piece "php_tag" 0 5 [], ⟨⟨"expression_statement", true, false, false, true, 7, 8, none⟩,
      [piece "integer" 7 8 [], ⟨⟨";", false, true, false, true, 8, 8, none⟩, []⟩]⟩]⟩

/-- The snippet has one of the two blanks, and its error stands at its end. -/
theorem snippet_openNumber : ∃ p q,
    file (fun _ => some openNumber) (tagBefore ++ " 1") = .ok p ∧
    snippet (fun _ => some openNumber) " 1" = .ok q ∧
    p.tree.rootNode.green.untagged? = some q.tree.rootNode.green ∧
    p.errors = [⟨"expected `;`", 8⟩] ∧ q.errors = [⟨"expected `;`", 2⟩] := by
  have hbase : tagBefore.utf8ByteSize = 6 := by decide +kernel
  have htagged : openNumber.Tagged tagBefore.utf8ByteSize (piece "php_tag" 0 5 [])
      openNumber.children.tail := by
    refine ⟨rfl, rfl, rfl, rfl, rfl, ⟨rfl, rfl⟩, ?_, ?_⟩
    · exact .mk nofun .nil nofun
    · rw [hbase]
      refine List.forall_mem_singleton.2 (.mk (by decide) (by decide) ?_)
      refine List.forall_mem_cons.2 ⟨.mk (by decide) (by decide) nofun,
        List.forall_mem_singleton.2 (.mk (by decide) (by decide) nofun)⟩
  have hsnippet : snippet (fun _ => some openNumber) " 1" =
      .ok ⟨(Green.node .sourceFile [.token .whitespace " ",
        .node .exprStmt [.node .literal [.token .intNumber "1"]]]).toTree,
          [⟨"expected `;`", 2⟩]⟩ := by decide +kernel
  rcases snippet_eq_untagged_file (fun _ => some openNumber) " 1" htagged rfl with
    ⟨fault, -, hfault⟩ | ⟨p, q, hp, hq, htree, herrors⟩
  · rw [hsnippet] at hfault
    cases hfault
  · rw [hsnippet] at hq
    cases hq
    exact ⟨p, _, hp, hsnippet, htree, herrors.trans (by rw [hbase]; rfl), rfl⟩

end Parse

end PhpLint
