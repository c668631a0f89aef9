import PhpLint.Parse.Basic
import PhpLint.Proofs.Concrete.Lossless
import PhpLint.Proofs.Tree.Reachable

/-! A parse is the text again, cut into tokens, whatever tree the grammar makes of it. The one thing
that can go wrong is that a piece is asked what token it is and its text cannot be scanned. -/

namespace PhpLint

namespace Lower

/-- In the pieces that make up a file a text is met that cannot be scanned. -/
def RootFaulting (s : Source) (root : Concrete) : Prop :=
  if root.kind = "program" then ∃ x ∈ root.children, Faulting s x else Faulting s root

variable {s : Source}

/-- The pieces of a file, without the text behind them. -/
def rootPieces (s : Source) (root : Concrete) : Lower (List Green) :=
  if root.kind = "program" then lowerAll s root.head (fun _ => .plain) 0 none false root.children
  else lower s ⟨none, none, none, false⟩ .plain root

theorem lowerRoot_eq (s : Source) (root : Concrete) (stop : Nat) (c : Cursor) :
    lowerRoot s root stop c =
      let inner := rootPieces s root c
      let after := gap s stop inner.2
      (.node .sourceFile (inner.1 ++ after.1), after.2) := by
  rw [lowerRoot, rootPieces]
  split <;> rfl

theorem rootPieces_lossless {root : Concrete} (hroot : root.Fits s.text) :
    Lossless s (rootPieces s root) (RootFaulting s root) := by
  rw [rootPieces, RootFaulting]
  split
  next => exact lowerAll_fits_lossless hroot.children root.head
  next => exact lower_lossless hroot _ .plain

/-- The nodes of a file are all the text behind the base. -/
theorem exists_lowerRoot (hbase : Text.Boundary s.text s.base) {root : Concrete}
    (hroot : root.Fits s.text) :
    ∃ gs c, lowerRoot s root (Text.byteLength s.text) (start s) = (.node .sourceFile gs, c) ∧
      (Green.tokensAll gs).flatMap String.toList = Text.dropBytes s.base s.text ∧
      (∀ text ∈ Green.tokensAll gs, text ≠ "") ∧
      (c.fault.isSome = true ↔ RootFaulting s root) := by
  have hstart : Aligned s (start s) := by
    obtain ⟨before, behind, htext, hlen⟩ := hbase
    refine ⟨before, ?_, hlen⟩
    rw [start, ← hlen, htext, Text.dropBytes_byteLength]
  have hpieces := rootPieces_lossless hroot _ hstart
  have hgap := gap_lossless (Text.boundary_byteLength s.text) _ hpieces.aligned
  have htook := hpieces.append hgap
  have hend := le_pos_gap s (Text.byteLength s.text) (rootPieces s root (start s)).2
  have hnil : (gap s (Text.byteLength s.text) (rootPieces s root (start s)).2).2.rest = [] := by
    obtain ⟨before, htext, hpos⟩ := hgap.aligned
    have hlen := congrArg Text.byteLength htext
    rw [Text.byteLength_append] at hlen
    exact Text.eq_nil_of_byteLength_eq_zero (by omega)
  refine ⟨_, _, lowerRoot_eq .., ?_, htook.nonempty, htook.fault_iff.trans (by simp [start])⟩
  have hrest := htook.rest_eq
  rw [hnil, List.append_nil] at hrest
  exact hrest.symm

end Lower

/-- The tree of a node whose tokens are a text: that text, token by token, soundly linked. -/
theorem Green.toTree_holds_text {kind : Kind} {gs : List Green} {text : List Char}
    (htext : (tokensAll gs).flatMap String.toList = text) (hne : ∀ t ∈ tokensAll gs, t ≠ "") :
    let t := (node kind gs).toTree
    t.text = .ofList text ∧
      String.join ((t.preorder t.root).filterMap t.tokenText?) = t.text ∧
      (∀ token ∈ (t.preorder t.root).filterMap t.tokenText?, token ≠ "") ∧ t.defect? = none := by
  have hjoin : String.join (tokensAll gs) = .ofList text := by
    rw [← String.toList_inj, String.toList_join, htext, String.toList_ofList]
  refine ⟨(text_toTree kind gs).trans hjoin, ?_, ?_, ?_⟩
  · rw [filterMap_tokenText?_preorder, text_toTree]
  · rw [filterMap_tokenText?_preorder]
    exact hne
  · exact (Tree.sound_ofEvents _).defect?_eq_none (Tree.bare_ofEvents _)

namespace Parse

theorem tokens_unparsed (s : Source) : ∃ gs, unparsed s = .node .sourceFile gs ∧
    (Green.tokensAll gs).flatMap String.toList = Text.dropBytes s.base s.text ∧
    ∀ text ∈ Green.tokensAll gs, text ≠ "" := by
  refine ⟨_, rfl, ?_⟩
  cases htext : Text.dropBytes s.base s.text with
  | nil => simp [Green.tokensAll]
  | cons c text => simp [Green.tokensAll, Green.tokens]

theorem after_eq {grammar : Grammar} {source : String} {base : Nat} {root : Concrete}
    {green : Green} {c : Cursor} (hg : grammar source = some root)
    (hlower : Lower.lowerRoot ⟨source.toList, base⟩ root (Text.byteLength source.toList)
      (Lower.start ⟨source.toList, base⟩) = (green, c)) :
    after grammar source base = match c.fault with
      | some fault => .error fault
      | none => .ok ⟨green.toTree, c.errors⟩ := by
  have hsize : source.utf8ByteSize = Text.byteLength source.toList := by
    rw [← Text.utf8ByteSize_ofList, String.ofList_toList]
  cases hfault : c.fault with
  | none => simp only [after, hg, StateT.run, hsize, hlower, hfault]
  | some fault => simp only [after, hg, StateT.run, hsize, hlower, hfault]

/-- Parsing fails exactly where a piece gone into has a text that cannot be scanned. -/
theorem exists_after_eq_error_iff {grammar : Grammar} {source : String} {base : Nat}
    (hbase : Text.Boundary source.toList base)
    (hroot : ∀ root, grammar source = some root → root.Fits source.toList) :
    (∃ fault, after grammar source base = .error fault) ↔
      ∃ root, grammar source = some root ∧ Lower.RootFaulting ⟨source.toList, base⟩ root := by
  cases hg : grammar source with
  | none => simp [after, hg]
  | some root =>
    obtain ⟨gs, c, hlower, -, -, hfault⟩ :=
      Lower.exists_lowerRoot (s := ⟨source.toList, base⟩) hbase (hroot root hg)
    have hiff : (∃ root', some root = some root' ∧
        Lower.RootFaulting ⟨source.toList, base⟩ root') ↔ c.fault.isSome = true := by
      simpa using hfault.symm
    rw [hiff, after_eq hg hlower]
    cases c.fault <;> simp

theorem holds_text_of_after_eq_ok {grammar : Grammar} {source : String} {base : Nat}
    (hbase : Text.Boundary source.toList base)
    (hroot : ∀ root, grammar source = some root → root.Fits source.toList) {p : Parse}
    (hp : after grammar source base = .ok p) :
    ∃ gs, p.tree = (Green.node .sourceFile gs).toTree ∧
      (Green.tokensAll gs).flatMap String.toList = Text.dropBytes base source.toList ∧
      ∀ text ∈ Green.tokensAll gs, text ≠ "" := by
  cases hg : grammar source with
  | none =>
    obtain ⟨gs, hgs, htext, hne⟩ := tokens_unparsed ⟨source.toList, base⟩
    simp only [after, hg, hgs, Except.ok.injEq] at hp
    exact ⟨gs, hp ▸ rfl, htext, hne⟩
  | some root =>
    obtain ⟨gs, c, hlower, htext, hne, -⟩ :=
      Lower.exists_lowerRoot (s := ⟨source.toList, base⟩) hbase (hroot root hg)
    rw [after_eq hg hlower] at hp
    cases hfault : c.fault with
    | some fault =>
      rw [hfault] at hp
      cases hp
    | none =>
      rw [hfault] at hp
      cases hp
      exact ⟨gs, rfl, htext, hne⟩

/-- The tree of a parse has the text behind the base, token by token, and is soundly linked. -/
theorem text_of_after_eq_ok {grammar : Grammar} {source : String} {base : Nat} {p : Parse}
    (hbase : Text.Boundary source.toList base)
    (hroot : ∀ root, grammar source = some root → root.Fits source.toList)
    (hp : after grammar source base = .ok p) :
    p.tree.text = .ofList (Text.dropBytes base source.toList) ∧
      String.join ((p.tree.preorder p.tree.root).filterMap p.tree.tokenText?) = p.tree.text ∧
      (∀ text ∈ (p.tree.preorder p.tree.root).filterMap p.tree.tokenText?, text ≠ "") ∧
      p.tree.defect? = none := by
  obtain ⟨gs, htree, htext, hne⟩ := holds_text_of_after_eq_ok hbase hroot hp
  rw [htree]
  exact Green.toTree_holds_text htext hne

/-- For every grammar, text and base: the tree holds the text behind the base, every byte of it in
one token and no token empty, and its links are sound; or no tree is made, and then some piece gone
into has a text that cannot be scanned. -/
theorem after_lossless (grammar : Grammar) (source : String) (base : Nat)
    (hbase : Text.Boundary source.toList base)
    (hroot : ∀ root, grammar source = some root → root.Fits source.toList) :
    (∀ p, after grammar source base = .ok p →
      p.tree.text = .ofList (Text.dropBytes base source.toList) ∧
        String.join ((p.tree.preorder p.tree.root).filterMap p.tree.tokenText?) = p.tree.text ∧
        (∀ text ∈ (p.tree.preorder p.tree.root).filterMap p.tree.tokenText?, text ≠ "") ∧
        p.tree.defect? = none) ∧
      ((∃ fault, after grammar source base = .error fault) ↔
        ∃ root, grammar source = some root ∧ Lower.RootFaulting ⟨source.toList, base⟩ root) :=
  ⟨fun _ => text_of_after_eq_ok hbase hroot, exists_after_eq_error_iff hbase hroot⟩

/-- A named piece from `start` to `stop`. -/
def piece (kind : String) (start stop : Nat) (children : List Concrete) : Concrete :=
  ⟨⟨kind, true, false, false, false, start, stop, none⟩, children⟩

theorem fits_of_ascii {text : List Char} (h : ∀ c ∈ text, c.utf8Size = 1) {head : Head}
    {children : List Concrete} (hle : head.start ≤ head.stop) (hstop : head.stop ≤ text.length)
    (hchildren : ∀ c ∈ children, c.Fits text) : Concrete.Fits text ⟨head, children⟩ :=
  .mk (Text.boundary_of_ascii h (hle.trans hstop)) (Text.boundary_of_ascii h hstop) hle hchildren

theorem fits_piece {text : List Char} (h : ∀ c ∈ text, c.utf8Size = 1) (kind : String)
    {start stop : Nat} (hle : start ≤ stop) (hstop : stop ≤ text.length) {children : List Concrete}
    (hchildren : ∀ c ∈ children, c.Fits text) : (piece kind start stop children).Fits text :=
  fits_of_ascii h hle hstop hchildren

/-- Two names of which the second comes first, and a blank that is part of neither. -/
theorem text_of_names_out_of_order :
    ∃ p, after (fun _ => some (piece "program" 0 3 [piece "name" 2 3 [], piece "name" 0 1 []]))
      "a b" 0 = .ok p ∧ p.tree.text = "a b" ∧ p.tree.defect? = none := by
  have hascii : ∀ c ∈ "a b".toList, c.utf8Size = 1 := by simp [Char.utf8Size]
  have h := after_lossless
    (fun _ => some (piece "program" 0 3 [piece "name" 2 3 [], piece "name" 0 1 []])) "a b" 0
    (Text.boundary_zero _) fun root hroot => by
      cases hroot
      refine fits_piece hascii _ (by decide) (by decide) ?_
      simp only [List.forall_mem_cons]
      exact ⟨fits_piece hascii _ (by decide) (by decide) (by simp),
        fits_piece hascii _ (by decide) (by decide) (by simp), by simp⟩
  exact ⟨_, rfl, (h.1 _ rfl).1, (h.1 _ rfl).2.2.2⟩

theorem inside_openHeredocQuote : Lower.inside ⟨"<<<\x27A".toList, 0⟩
    (piece "string_content" 0 5 []) = .error .openHeredocQuote := by
  have hscan : Token.scan .code ['<', '<', '<', '\x27', 'A'] = .error .openHeredocQuote := by
    rw [Token.scan]
    rfl
  have hslice : (String.ofList (Text.slice "<<<\x27A".toList 0 5)).toList =
      ['<', '<', '<', '\x27', 'A'] := by decide
  have hof : ∀ place, Treatment.of "<<<\x27A".toList place (piece "string_content" 0 5 []) =
      Treatment.ofLeaf "<<<\x27A".toList (piece "string_content" 0 5 []).head := fun _ => rfl
  rw [Lower.inside, if_neg (by decide), if_neg (by decide), if_neg (by decide), hof,
    Treatment.ofLeaf, Treatment.scanned, Token.classify, Token.ofCode]
  change ((((Token.scan .code (String.ofList (Text.slice _ 0 5)).toList).map _).map _).map _) = _
  rw [hslice, hscan]
  rfl

/-- A heredoc whose label is opened by a quote and ends the piece: no tree is made. -/
theorem exists_after_eq_error :
    ∃ (grammar : Grammar) (source : String),
      (∀ root, grammar source = some root → root.Fits source.toList) ∧
        ∃ fault, after grammar source 0 = .error fault := by
  have hfits : (piece "program" 0 5 [piece "string_content" 0 5 []]).Fits "<<<\x27A".toList := by
    have hascii : ∀ c ∈ "<<<\x27A".toList, c.utf8Size = 1 := by simp [Char.utf8Size]
    refine fits_piece hascii _ (by decide) (by decide) ?_
    simpa using fits_piece hascii "string_content" (by decide) (by decide) (by simp)
  have hroot : ∀ root, some (piece "program" 0 5 [piece "string_content" 0 5 []]) = some root →
      root.Fits "<<<\x27A".toList := fun root hroot => by
    cases hroot
    exact hfits
  refine ⟨fun _ => some (piece "program" 0 5 [piece "string_content" 0 5 []]), "<<<\x27A", hroot,
    ?_⟩
  rw [exists_after_eq_error_iff (Text.boundary_zero _) hroot]
  refine ⟨_, rfl, ?_⟩
  rw [Lower.RootFaulting, if_pos (by decide)]
  exact ⟨piece "string_content" 0 5 [], List.mem_cons_self, .scanned inside_openHeredocQuote⟩

end Parse

end PhpLint
