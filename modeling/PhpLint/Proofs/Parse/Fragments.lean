import PhpLint.Parse.Fragment
import PhpLint.Proofs.Concrete.Quiet
import PhpLint.Proofs.Concrete.Words
import PhpLint.Proofs.Parse.Origins

/-! A fragment is exactly what was asked for: the text again, as one solid node. Statements are taken
without errors only, and a token is one by itself. An expression is lowered a second time, apart
from the statement it was found in, and nobody looks at what is reported then; that nothing is,
depends on the statement beginning right behind the open tag. -/

namespace PhpLint

namespace Concrete

/-- The kinds of pieces that are expressions. -/
def expressionKinds : List String := [
  "anonymous_function", "anonymous_function_creation_expression", "array_creation_expression",
  "arrow_function", "assignment_expression", "augmented_assignment_expression", "binary_expression",
  "boolean", "cast_expression", "class_constant_access_expression", "clone_expression",
  "conditional_expression", "dynamic_variable_name", "encapsed_string",
  "error_suppression_expression", "float", "function_call_expression", "heredoc",
  "include_expression", "include_once_expression", "integer", "match_expression",
  "member_access_expression", "member_call_expression", "name", "nowdoc", "null",
  "nullsafe_member_access_expression", "nullsafe_member_call_expression",
  "object_creation_expression", "parenthesized_expression", "print_intrinsic", "qualified_name",
  "reference_assignment_expression", "require_expression", "require_once_expression",
  "scoped_call_expression", "scoped_property_access_expression", "shell_command_expression",
  "string", "subscript_expression", "throw_expression", "unary_op_expression",
  "update_expression", "variable_name", "yield_expression"]
/-- A semicolon behind one expression, comments aside. -/
def IsExpressionStatement (x : Concrete) : Prop :=
  ∃ pieces semicolon, x.children = pieces ++ [semicolon] ∧
    semicolon.start + 1 = semicolon.stop ∧ semicolon.stop = x.stop ∧
    (∀ y ∈ pieces, y.kind = "comment" ∨ y.kind ∈ expressionKinds) ∧
    (pieces.filter (·.kind ∈ expressionKinds)).length = 1

end Concrete

namespace Treatment
/-- One node, whatever lies in it. -/
def IsNode : Treatment → Prop
  | .wrapped .. | .composite _ | .keywordCall .. => True
  | _ => False

theorem ofCall_isNode (text : List Char) (c : Concrete) : (ofCall text c).IsNode := by
  unfold ofCall
  split
  · trivial
  · dsimp only
    split <;> trivial

/-- The pieces in which an expression stands alone. -/
def soleParents : List String := ["expression_statement", "parenthesized_expression"]

theorem ofName_isNode {place : Place} (head : Head) (hplace : place.parentKind ∈ soleParents) :
    (ofName place head).IsNode := by
  unfold ofName
  rcases List.mem_pair.1 hplace with hplace | hplace
  all_goals
    rw [hplace]
    dsimp only
    rw [if_neg (by simp)]
    trivial

theorem exists_of_expression (text : List Char) {place : Place} {c : Concrete}
    (hplace : place.parentKind ∈ soleParents) (hkind : c.kind ∈ Concrete.expressionKinds) :
    ∃ t, of text place c = .ok t ∧ t.IsNode := by
  obtain ⟨⟨kind, named, missing, error, faulty, start, stop, field⟩, children⟩ := c
  simp only [Concrete.kind, Concrete.expressionKinds, List.mem_cons, List.not_mem_nil,
    or_false] at hkind
  have hbare : conditionParents.contains place.parentKind = false := by
    rcases List.mem_pair.1 hplace with hplace | hplace <;> rw [hplace] <;> decide
  casesm* _ ∨ _ <;> subst hkind
  all_goals first
    | exact ⟨_, rfl, trivial⟩
    | exact ⟨_, rfl, ofCall_isNode ..⟩
    | exact ⟨_, rfl, ofName_isNode _ hplace⟩
    | refine ⟨.composite .parenExpr, ?_, trivial⟩
      simp only [of, hbare]
      rfl
end Treatment

namespace Lower

variable {s : Source} {c : Cursor} {x : Concrete} {xs : List Concrete}

/-- How many of the nodes are solid. -/
def solids (gs : List Green) : Nat := (gs.filter (!·.kindOf.isTrivia)).length

theorem solids_append (gs hs : List Green) : solids (gs ++ hs) = solids gs + solids hs := by
  rw [solids, List.filter_append, List.length_append]
  rfl

theorem solids_gap (hc : Aligned s c) {stop : Nat} (hstop : Text.Boundary s.text stop)
    (h : Text.Blank s.text c.pos stop) : solids (gap s stop c).1 = 0 := by
  rw [gap_eq]
  split
  next => rfl
  next hlt =>
    rw [cut_eq_slice hc hstop (Nat.le_of_not_le hlt), solids, List.length_eq_zero_iff,
      List.filter_eq_nil_iff]
    intro g hg
    obtain ⟨run, hrun, rfl⟩ := List.mem_map.1 hg
    rw [gapToken, if_pos (isBlankRun_of_blank h hrun), Green.kindOf]
    decide

/-- What a piece that is no fault leaves, be it a comment or an expression of a statement. -/
theorem lower_solids (hx : x.Fits s.text) (hmarked : x.Marked) (hclean : ¬ x.Faulty)
    (hkind : x.kind = "comment" ∨ x.kind ∈ Concrete.expressionKinds) (place : Place)
    (hplace : place.parentKind = "expression_statement") (hc : Aligned s c)
    (hblank : Text.Blank s.text c.pos x.start) :
    solids (lower s place .plain x c).1 ≤ if x.kind ∈ Concrete.expressionKinds then 1 else 0 := by
  have hmissing : ¬ x.head.missing = true := fun hm => hclean (.missing hm)
  have herror : ¬ x.head.error = true := fun he => hclean (.error he)
  have hfaulty : x.head.faulty = false := Bool.eq_false_iff.2 (hclean ∘ hmarked.faulty_iff.1)
  have hbefore := solids_gap hc hx.start hblank
  have hleaf : solids (leaf s .comment x c).1 = 0 := by
    rw [leaf_eq]
    simp only [hfaulty, Bool.false_eq_true, if_false]
    split
    · exact hbefore
    · rw [solids_append, hbefore]
      rfl
  obtain ⟨head, children⟩ := x
  change ¬ head.missing = true at hmissing
  change ¬ head.error = true at herror
  rw [lower, if_neg hmissing]
  by_cases hempty : head.start = head.stop ∨ head.stop ≤ s.base
  · rw [if_pos hempty]
    exact Nat.zero_le _
  rw [if_neg hempty, if_neg herror]
  rcases hkind with hcomment | hexpression
  · have hof : Treatment.of s.text place ⟨head, children⟩ = .ok (.leaf .comment) := by
      rw [Treatment.of, hcomment]
      rfl
    rw [hof]
    exact (hleaf.trans_le (Nat.zero_le _) : solids (leaf s .comment ⟨head, children⟩ c).1 ≤ _)
  · obtain ⟨treatment, hof, hnode⟩ := Treatment.exists_of_expression s.text
      (List.mem_pair.2 (.inl hplace)) hexpression
    have hone : ∀ kind gs, solids ((gap s head.start c).1 ++ [.node kind gs]) ≤ 1 := by
      intro kind gs
      rw [solids_append, show solids (gap s head.start c).1 = 0 from hbefore, Nat.zero_add]
      exact List.length_filter_le ..
    rw [if_pos hexpression, hof]
    cases treatment with
    | wrapped node token => exact hone node _
    | composite kind => exact hone kind _
    | keywordCall node keyword callee => exact hone node _
    | leaf | transparent | elseIf | targets => exact hnode.elim

theorem lowerAll_skip {role : Nat → Role} {i : Nat} (hrole : ∀ j, i ≤ j → role j = .skip)
    {parent : Head} {prev : Option String} {named : Bool} :
    lowerAll s parent role i prev named xs = pure [] := by
  induction xs generalizing i prev named with
  | nil => rw [lowerAll]
  | cons x xs ih =>
    have hnothing : lower s (placeIn parent prev named x xs) .skip x = pure [] := by
      obtain ⟨head, children⟩ := x
      rw [lower]
    rw [lowerAll, hrole i (Nat.le_refl i), hnothing, ih fun j hj => hrole j (Nat.le_of_succ_le hj)]
    rfl

/-- The pieces of an expression statement before number `n`. -/
theorem lowerAll_solids (h : ∀ x ∈ xs, Settled s x) (hfits : ∀ x ∈ xs, x.Fits s.text)
    (hmarked : ∀ x ∈ xs, x.Marked) (hclean : ∀ x ∈ xs, ¬ x.Faulty) (parent : Head)
    (hparent : parent.kind = "expression_statement") {n i k : Nat} (hk : n = i + k)
    (hkinds : ∀ x ∈ xs.take k, x.kind = "comment" ∨ x.kind ∈ Concrete.expressionKinds)
    (prev : Option String) (named : Bool) {a b : Nat} (ha : Text.Boundary s.text a)
    (hc : Aligned s c) (hbase : s.base ≤ c.pos) (hblank : Text.Blank s.text c.pos a)
    (hspaced : Concrete.Spaced s.text a xs b) :
    solids (lowerAll s parent (fun j => if j < n then .plain else .skip) i prev named xs c).1 ≤
      ((xs.take k).filter (·.kind ∈ Concrete.expressionKinds)).length := by
  induction xs generalizing i k prev named a c with
  | nil =>
    rw [lowerAll]
    exact Nat.zero_le _
  | cons x xs ih =>
    rw [List.forall_mem_cons] at h hfits hmarked hclean
    have hfront := hblank.trans hc.boundary ha hfits.1.start hspaced.1
    cases k with
    | zero =>
      rw [lowerAll_skip fun j hj => if_neg (by omega)]
      exact Nat.zero_le _
    | succ k =>
      rw [List.take_succ_cons, List.forall_mem_cons] at hkinds
      have hx := h.1 (placeIn parent prev named x xs) .plain c (by simp) (by simp [Splits]) hc hbase
        hfront
      have hone := lower_solids hfits.1 hmarked.1 hclean.1 hkinds.1
        (placeIn parent prev named x xs) hparent hc hfront
      have hrest := ih h.2 hfits.2 hmarked.2 hclean.2 (i := i + 1) (k := k) (by omega) hkinds.2
        (some x.kind) (named || Treatment.isNameKind x.kind) hfits.1.stop hx.aligned hx.base hx.blank
        hspaced.2
      have hsplit : solids (lowerAll s parent (fun j => if j < n then .plain else .skip) i prev
          named (x :: xs) c).1 =
          solids (lower s (placeIn parent prev named x xs) .plain x c).1 +
            solids (lowerAll s parent (fun j => if j < n then .plain else .skip) (i + 1)
              (some x.kind) (named || Treatment.isNameKind x.kind) xs
              (lower s (placeIn parent prev named x xs) .plain x c).2).1 := by
        rw [lowerAll, if_pos (by omega : i < n)]
        exact solids_append ..
      rw [hsplit, List.take_succ_cons, List.filter_cons]
      split
      next hx =>
        rw [if_pos (by simpa using hx)] at hone
        rw [List.length_cons]
        omega
      next hx =>
        rw [if_neg (by simpa using hx)] at hone
        omega

theorem lowerBody_eq (s : Source) (x : Concrete) (stop : Nat) (c : Cursor) :
    lowerBody s x stop c =
      let inner := lowerAll s x.head (fun i => if i < x.children.length - 1 then .plain else .skip) 0
        none false x.children c
      let after := gap s stop inner.2
      (.node .sourceFile (inner.1 ++ after.1), after.2) := by
  rw [lowerBody]
  rfl

end Lower

namespace Parse

/-- What a grammar makes of the statements of a source: their faults are marked, the pieces of one
without fault cover its text, and an expression statement that ends the source is one expression. -/
structure Reading (source : String) (root : Concrete) : Prop where
  marked : root.Marked
  covered : ∀ x ∈ root.children, ¬ x.Faulty → x.Covered source.toList
  statement : ∀ x ∈ root.children, ¬ x.Faulty → x.kind = "expression_statement" →
    x.stop = source.utf8ByteSize → x.IsExpressionStatement

end Parse

namespace Lower

variable {s : Source} {c : Cursor} {x semicolon : Concrete} {pieces : List Concrete}
  {P : Concrete → Prop}

/-- What is taken from the start on is the front of the text, as much of it as it spans. -/
theorem Took.tokens_eq {gs : List Green} {d : Cursor} {faults : Prop} {before front behind : List Char}
    (h : Took s (start s) gs d faults) (htext : s.text = before ++ (front ++ behind))
    (hbase : s.base = Text.byteLength before)
    (hspan : Green.span (Green.leavesAll gs) = Text.byteLength front) :
    (Green.tokensAll gs).flatMap String.toList = front := by
  have hrest := h.rest_eq
  rw [start, htext, hbase, Text.dropBytes_byteLength] at hrest
  exact (Text.eq_of_append_eq hrest (by rw [← Green.span_leavesAll, hspan])).symm

/-- The first pieces of a statement, and the text behind them up to an offset. -/
def upTo (s : Source) (x : Concrete) (stop n : Nat) : List Green × Cursor :=
  let inner := lowerAll s x.head (fun i => if i < n then .plain else .skip) 0 none false x.children
    (start s)
  let after := gap s stop inner.2
  (inner.1 ++ after.1, after.2)

theorem lowerBody_start (s : Source) (x : Concrete) (stop : Nat) : lowerBody s x stop (start s) =
    (.node .sourceFile (upTo s x stop (x.children.length - 1)).1,
      (upTo s x stop (x.children.length - 1)).2) := lowerBody_eq ..

theorem upTo_took (hbase : Text.Boundary s.text s.base) (hx : x.Fits s.text) {stop : Nat}
    (hstop : Text.Boundary s.text stop) (n : Nat) :
    ∃ faults, Took s (start s) (upTo s x stop n).1 (upTo s x stop n).2 faults := by
  have hinner := lowerAll_lossless (fun y hy => lower_lossless (hx.children y hy)) x.head
    (fun i => if i < n then .plain else .skip) 0 none false _ (aligned_start hbase)
  exact ⟨_, hinner.append (gap_lossless hstop _ hinner.aligned)⟩

theorem firstPieces_walk (hbase : Text.Boundary s.text s.base) (hnested : x.Nested)
    (h : ∀ y ∈ x.children, Walked s P y) (hle : s.base ≤ x.start) (n : Nat) :
    let out := lowerAll s x.head (fun i => if i < n then .plain else .skip) 0 none false x.children
      (start s)
    Walk s P (fun a b => ∀ j y, x.children[j]? = some y →
      RoleApart (if j < n then .plain else .skip) y a b) (start s) out.1 out.2 := by
  have hwalk := lowerAll_walk h hnested.children hnested.pairwise x.head
    (fun i => if i < n then .plain else .skip) 0 none false (aligned_start hbase)
    (fun j y hy => roleClear_of_clear (hnested.children y (List.mem_of_getElem? hy))
      (.inl (hle.trans (hnested.within (List.mem_of_getElem? hy)).1)))
    fun j y kind _ hrole => by split at hrole <;> cases hrole
  simp only [Nat.zero_add] at hwalk
  exact hwalk

theorem upTo_walk (hbase : Text.Boundary s.text s.base) (hnested : x.Nested)
    (h : ∀ y ∈ x.children, Walked s P y) (hle : s.base ≤ x.start) {stop : Nat}
    (hstop : Text.Boundary s.text stop) (n : Nat) :
    Walk s P (fun _ _ => False) (start s) (upTo s x stop n).1 (upTo s x stop n).2 := by
  have hinner := firstPieces_walk hbase hnested h hle n
  exact (hinner.append (gap_walk hstop hinner.aligned)).mono fun _ _ => False.elim

/-- All that is lowered stands before the semicolon, so the cursor does not get behind it. -/
theorem pos_upTo (hbase : Text.Boundary s.text s.base) (hnested : x.Nested)
    (h : ∀ y ∈ x.children, Walked s P y) (hle : s.base ≤ x.start)
    (hchildren : x.children = pieces ++ [semicolon]) :
    (upTo s x semicolon.start pieces.length).2.pos = semicolon.start := by
  have hinner := firstPieces_walk hbase hnested h hle pieces.length
  have hmem : semicolon ∈ x.children := by rw [hchildren]; simp
  have hclear := hinner.clear semicolon.start (Text.byteLength s.text + 1)
    (fun j y hy z hz => .inl (by
      split at hz
      next hj =>
        obtain rfl := List.mem_singleton.1 hz
        refine hnested.stop_le_start hy (j := pieces.length) ?_ hj
        rw [hchildren, List.getElem?_append_right (Nat.le_refl _), Nat.sub_self]
        rfl
      next => cases hz))
    (.inl (hle.trans (hnested.within hmem).1))
  obtain ⟨before, htext, hpos⟩ := hinner.aligned
  have hlen := congrArg Text.byteLength htext
  rw [Text.byteLength_append] at hlen
  rw [upTo, pos_gap]
  rw [Clear] at hclear
  omega

/-- If the statement stands right behind the open tag, nothing is reported on the way, and its one
expression is all that is solid. -/
theorem upTo_quiet (hbase : Text.Boundary s.text s.base) (hx : x.Fits s.text) (hmarked : x.Marked)
    (hclean : ¬ x.Faulty) (hcovered : x.Covered s.text) (hkind : x.kind = "expression_statement")
    (hchildren : x.children = pieces ++ [semicolon])
    (hkinds : ∀ y ∈ pieces, y.kind = "comment" ∨ y.kind ∈ Concrete.expressionKinds)
    (hblank : Text.Blank s.text s.base x.start) :
    (upTo s x semicolon.start pieces.length).2.errors = [] ∧
      solids (upTo s x semicolon.start pieces.length).1 ≤
        (pieces.filter (·.kind ∈ Concrete.expressionKinds)).length := by
  have hof : Treatment.of s.text ⟨none, none, none, false⟩ x = .ok (.composite .exprStmt) := by
    rw [Treatment.of, hkind]
    rfl
  obtain ⟨hspaced, -, hcovered⟩ := hcovered.of_not_isToken hof id
  have hsettled : ∀ y ∈ x.children, Settled s y := fun y hy =>
    lower_quiet (hx.children y hy) (hmarked.children y hy) (fun hf => hclean (.deeper hy hf))
      (hcovered y hy)
  have hsemicolon : semicolon.Fits s.text := hx.children _ (by rw [hchildren]; simp)
  have hdrop : ((x.children.drop pieces.length).head?.map (·.start)).getD x.stop =
      semicolon.start := by
    rw [hchildren, List.drop_left]
    rfl
  have htake : x.children.take pieces.length = pieces := by rw [hchildren, List.take_left]
  have hinner := lowerAll_quiet hsettled hx.children x.head none false hx.start hsemicolon.start
    (aligned_start hbase) (Nat.le_refl s.base) hblank
    (hdrop ▸ laid_take (Nat.zero_add _).symm hspaced)
    fun j y _ hrole => by split at hrole <;> simp at hrole
  have hafter := gap_quiet hinner.aligned hinner.base hsemicolon.start hinner.blank
  refine ⟨hafter.errors.trans hinner.errors, ?_⟩
  have hsolids := lowerAll_solids hsettled hx.children hmarked.children
    (fun y hy hf => hclean (.deeper hy hf)) x.head hkind (Nat.zero_add _).symm
    (htake.symm ▸ hkinds) none false hx.start (aligned_start hbase) (Nat.le_refl s.base) hblank
    hspaced
  rw [htake] at hsolids
  rw [upTo, solids_append, solids_gap hinner.aligned hsemicolon.start hinner.blank]
  exact hsolids

end Lower

namespace Fragment

/-- The text that the grammar is asked about. -/
def wrapped? : FragmentKind → String → Option String
  | .expression, text => some (Parse.tagBefore ++ text ++ ";")
  | .statement, text => some (Parse.tagBefore ++ text)
  | .token, _ => none

/-- Nothing but white space stands between the open tag and the statement. -/
def StatementFirst (grammar : Grammar) (source : String) : Prop :=
  ∀ root x, grammar source = some root → onlyStatement? root = some x →
    Text.Blank source.toList Parse.tagBefore.utf8ByteSize x.start

/-- An error token that is a piece of the grammar's tree, whole and at its own place. -/
def Placed (grammar : Grammar) (kind : FragmentKind) (text : String) (offset : Nat)
    (word : String) : Prop :=
  ∃ source root x, wrapped? kind text = some source ∧ grammar source = some root ∧
    root.Below x ∧ x.children = [] ∧ x.start = Parse.tagBefore.utf8ByteSize + offset ∧
    word = .ofList (Text.slice source.toList x.start x.stop) ∧ Token.classify word = .ok none

/-- One solid node under the root, the given one, no error node, and no error token but whole
pieces. -/
structure Sole (f : Fragment) (placed : Nat → String → Prop) : Prop where
  node : f.tree.solidChildren f.tree.root = [f.node]
  errorNode : ∀ id ∈ f.tree.descendants f.tree.root, f.tree.kind id ≠ .errorNode
  errorToken : ∀ before word after, f.tree.words = before ++ (.errorToken, word) :: after →
    placed (Green.span before) word

variable {grammar : Grammar} {text source : String} {kind : FragmentKind} {f : Fragment}

theorem sole_of_nodes {gs : List Green} {node : NodeId} {rest : List NodeId}
    {placed : Nat → String → Prop}
    (hnode : (Green.node .sourceFile gs).toTree.solidChildren (Green.node .sourceFile gs).toTree.root =
      node :: rest)
    (hsolids : Lower.solids gs ≤ 1) (hnodes : ∀ n ∈ Green.nodesAll gs, Lower.Sorted False n)
    (hleaves : ∀ before word after, Green.leavesAll gs = before ++ (.errorToken, word) :: after →
      placed (Green.span before) word) :
    Sole ⟨(Green.node .sourceFile gs).toTree, node⟩ placed where
  node := by
    have hlength := Green.length_solidChildren_toTree .sourceFile gs
    rw [hnode, List.length_cons] at hlength
    have hrest : rest = [] := List.eq_nil_of_length_eq_zero (by
      rw [Lower.solids] at hsolids
      omega)
    exact hnode.trans (by rw [hrest])
  errorNode := by
    intro id hid hk
    obtain ⟨hid, htoken⟩ := List.mem_filter.1 hid
    have htext : (Green.node .sourceFile gs).toTree.tokenText? id = none := by
      simpa [Tree.isToken] using htoken
    obtain ⟨cs, hcs⟩ := Green.exists_mem_nodes hid htext
    rw [Green.nodes] at hcs
    rcases List.mem_cons.1 hcs with heq | hcs
    · exact absurd (hk.symm.trans (Prod.mk.inj heq).1) (by decide)
    · exact (hnodes _ hcs).1 hk
  errorToken := by
    intro before word after hwords
    rw [Green.words_toTree] at hwords
    exact hleaves before word after hwords

theorem placed_of_origin {s : Source} {root : Concrete} {before after : List (Kind × String)}
    {word : String} {gs : List Green}
    (hleaves : Green.Along (Lower.Origin s root.Below False) s.base (Green.leavesAll gs))
    (hsplit : Green.leavesAll gs = before ++ (.errorToken, word) :: after) :
    ∃ x, root.Below x ∧ x.children = [] ∧ x.start = s.base + Green.span before ∧
      word = .ofList (Text.slice s.text x.start x.stop) ∧ Token.classify word = .ok none := by
  generalize hw : (Kind.errorToken, word) = w at hsplit
  cases hleaves.split hsplit with
  | blank => cases hw
  | lost h => exact h.elim
  | @piece x kind hx hstart hgives =>
    cases hw
    rcases hgives.suits with hsuits | hkeyword
    · obtain ⟨hchildren, hclassify⟩ := hsuits.unknown_of_errorToken
      exact ⟨x, hx, hchildren, hstart, rfl, hclassify⟩
    · simp at hkeyword

theorem exists_of_tokenTree_eq_ok {tree : Tree} (h : tokenTree text = .ok tree) :
    ∃ word, Token.classify text = .ok (some word) ∧
      tree = (Green.node .sourceFile [.token word text]).toTree := by
  unfold tokenTree at h
  cases hclassify : Token.classify text with
  | error fault =>
    rw [hclassify] at h
    cases h
  | ok found =>
    rw [hclassify] at h
    dsimp only at h
    split at h
    next word hword =>
      cases h
      exact ⟨word, by rw [(Option.filter_eq_some_iff.1 hword).1], rfl⟩
    next => cases h

theorem text_boundary (text : String) (behind : List Char) :
    Text.Boundary (Parse.tagBefore.toList ++ (text.toList ++ behind)) Parse.tagBefore.utf8ByteSize :=
  ⟨_, _, rfl, Text.byteLength_toList _⟩

theorem dropBytes_tagBefore (text : List Char) :
    Text.dropBytes Parse.tagBefore.utf8ByteSize (Parse.tagBefore.toList ++ text) = text := by
  rw [← Text.byteLength_toList, Text.dropBytes_byteLength]

theorem exists_of_statementTree_eq_ok {tree : Tree} (h : statementTree grammar text = .ok tree) :
    ∃ p, Parse.snippet grammar text = .ok p ∧ p.errors = [] ∧
      (p.tree.solidChildren p.tree.root).length = 1 ∧ tree = p.tree := by
  unfold statementTree at h
  split at h
  next => cases h
  next p hsnippet =>
    split at h
    next => cases h
    next herrors =>
      split at h
      next hlength =>
        cases h
        exact ⟨p, hsnippet, herrors, hlength, rfl⟩
      next => cases h

theorem boundary_snippet (text : String) :
    Text.Boundary (Parse.tagBefore ++ text).toList Parse.tagBefore.utf8ByteSize :=
  ⟨Parse.tagBefore.toList, text.toList, by simp, Text.byteLength_toList _⟩

/-- What a fragment taken as a statement is made of. -/
theorem statementTree_accounts {tree : Tree}
    (hgrammar : ∀ root, grammar (Parse.tagBefore ++ text) = some root →
      root.Proper (Parse.tagBefore ++ text).toList Parse.tagBefore.utf8ByteSize)
    (h : statementTree grammar text = .ok tree) :
    ∃ root gs, grammar (Parse.tagBefore ++ text) = some root ∧
      tree = (Green.node .sourceFile gs).toTree ∧ tree.text = text ∧ Lower.solids gs ≤ 1 ∧
      Parse.Accounts (Parse.tagBefore ++ text).toList Parse.tagBefore.utf8ByteSize root False gs := by
  obtain ⟨p, hsnippet, herrors, hlength, rfl⟩ := exists_of_statementTree_eq_ok h
  cases hg : grammar (Parse.tagBefore ++ text) with
  | none =>
    rw [Parse.snippet, Parse.after, hg] at hsnippet
    cases hsnippet
    cases herrors
  | some root =>
    obtain ⟨gs, htree, haccounts⟩ :=
      Parse.accounts_of_after_eq_ok (boundary_snippet text) hg (hgrammar root hg) hsnippet
    obtain ⟨gs', htree', htext, hne⟩ := Parse.holds_text_of_after_eq_ok (boundary_snippet text)
      (fun root hroot => (hgrammar root hroot).fits) hsnippet
    have hdrop : Text.dropBytes Parse.tagBefore.utf8ByteSize (Parse.tagBefore ++ text).toList =
        text.toList := by
      rw [String.toList_append, dropBytes_tagBefore]
    refine ⟨root, gs, rfl, htree, ?_, ?_, ?_⟩
    · rw [htree', (Green.toTree_holds_text htext hne).1, hdrop, String.ofList_toList]
    · rw [htree, Green.length_solidChildren_toTree] at hlength
      exact hlength.le
    · have hlost : p.errors ≠ [] → False := fun hne => hne herrors
      exact ⟨haccounts.leaves.mono fun _ _ ho => ho.mono hlost, fun n hn =>
        ⟨fun hk => hlost ((haccounts.nodes n hn).1 hk), (haccounts.nodes n hn).2⟩⟩

/-- The statement that an expression is found in. -/
theorem mem_of_onlyStatement?_eq_some {root x : Concrete} (h : onlyStatement? root = some x) :
    x ∈ root.children := by
  unfold onlyStatement? at h
  split at h
  next only honly =>
    cases h
    have hmem : x ∈ root.namedChildren.filter fun c => c.kind != "php_tag" && c.kind != "comment" :=
      honly ▸ List.mem_cons_self
    exact List.mem_of_mem_filter (List.mem_of_mem_filter hmem)
  next => cases h

/-- What has been checked when a text is taken as an expression, and what is then lowered. -/
theorem exists_of_expressionTree_eq_ok {tree : Tree}
    (hsource : Parse.tagBefore ++ text ++ ";" = source) (h : expressionTree grammar text = .ok tree) :
    ∃ root x, grammar source = some root ∧
      Lower.errorsBelow ⟨source.toList, Parse.tagBefore.utf8ByteSize⟩ root = [] ∧
      onlyStatement? root = some x ∧ x.kind = "expression_statement" ∧
      x.stop = source.utf8ByteSize ∧
      let out := Lower.upTo ⟨source.toList, Parse.tagBefore.utf8ByteSize⟩ x (source.utf8ByteSize - 1)
        (x.children.length - 1)
      tree = (Green.node .sourceFile out.1).toTree ∧ out.2.fault = none := by
  unfold expressionTree at h
  rw [hsource] at h
  dsimp only at h
  cases hg : grammar source with
  | none =>
    rw [hg] at h
    cases h
  | some root =>
  rw [hg] at h
  dsimp only at h
  split at h
  next => cases h
  next herrors =>
  split at h
  next => cases h
  next x hx =>
  obtain ⟨hx, hkind⟩ := Option.filter_eq_some_iff.1 hx
  rw [Bool.and_eq_true, beq_iff_eq, beq_iff_eq] at hkind
  rw [StateT.run, Lower.lowerBody_start] at h
  dsimp only at h
  split at h
  next => cases h
  next hfault =>
  cases h
  exact ⟨root, x, rfl, herrors, hx, hkind.1, hkind.2, rfl, hfault⟩

/-- The wrapped text of an expression, and where its parts begin. -/
theorem wrapped_expression (hsource : Parse.tagBefore ++ text ++ ";" = source) :
    source.toList = Parse.tagBefore.toList ++ (text.toList ++ [';']) ∧
      source.utf8ByteSize = Parse.tagBefore.utf8ByteSize + text.utf8ByteSize + 1 := by
  subst hsource
  refine ⟨by simp, ?_⟩
  rw [String.utf8ByteSize_append, String.utf8ByteSize_append]
  rfl

/-- The offset of the semicolon behind the text. -/
theorem boundary_semicolon (hsource : Parse.tagBefore ++ text ++ ";" = source) :
    Text.Boundary source.toList (source.utf8ByteSize - 1) := by
  obtain ⟨hlist, hsize⟩ := wrapped_expression hsource
  refine ⟨Parse.tagBefore.toList ++ text.toList, [';'], by rw [hlist, List.append_assoc], ?_⟩
  rw [Text.byteLength_append, Text.byteLength_toList, Text.byteLength_toList]
  omega

theorem statement_walked {root x : Concrete} {base : Nat} (hroot : root.Proper source.toList base)
    (hx : x ∈ root.children) :
    ∀ y ∈ x.children, Lower.Walked ⟨source.toList, base⟩ root.Below y := fun y hy =>
  Lower.lower_walk (fun _ hx _ hy => .child hx hy) ((hroot.fits.children x hx).children y hy)
    ((hroot.nested.children x hx).children y hy) (.child (.child .root hx) hy)

/-- The tokens and nodes of the first pieces of the statement. -/
theorem accounts_upTo (hsource : Parse.tagBefore ++ text ++ ";" = source) {root x : Concrete}
    (hroot : root.Proper source.toList Parse.tagBefore.utf8ByteSize) (hx : x ∈ root.children)
    (hstop : x.stop = source.utf8ByteSize) (n : Nat) :
    let out := Lower.upTo ⟨source.toList, Parse.tagBefore.utf8ByteSize⟩ x (source.utf8ByteSize - 1) n
    Parse.Accounts source.toList Parse.tagBefore.utf8ByteSize root (Lower.Flawed out.2) out.1 := by
  obtain ⟨hlist, hsize⟩ := wrapped_expression hsource
  have hle : Parse.tagBefore.utf8ByteSize ≤ x.start := (hroot.beside x hx).resolve_right (by omega)
  have hwalk := Lower.upTo_walk (s := ⟨source.toList, Parse.tagBefore.utf8ByteSize⟩)
    (hlist ▸ text_boundary text [';']) (hroot.nested.children x hx) (statement_walked hroot hx) hle
    (boundary_semicolon hsource) n
  exact ⟨hwalk.leaves, hwalk.nodes⟩

/-- What a fragment taken as an expression is made of. -/
theorem expressionTree_accounts {tree : Tree}
    (hgrammar : ∀ root, grammar (Parse.tagBefore ++ text ++ ";") = some root →
      root.Proper (Parse.tagBefore ++ text ++ ";").toList Parse.tagBefore.utf8ByteSize ∧
        Parse.Reading (Parse.tagBefore ++ text ++ ";") root)
    (h : expressionTree grammar text = .ok tree) :
    ∃ root gs, grammar (Parse.tagBefore ++ text ++ ";") = some root ∧
      tree = (Green.node .sourceFile gs).toTree ∧ tree.text = text ∧
      (StatementFirst grammar (Parse.tagBefore ++ text ++ ";") → Lower.solids gs ≤ 1 ∧
        Parse.Accounts (Parse.tagBefore ++ text ++ ";").toList Parse.tagBefore.utf8ByteSize root
          False gs) := by
  generalize hsource : Parse.tagBefore ++ text ++ ";" = source at *
  obtain ⟨root, x, hg, herrors, hx, hkind, hstop, rfl, hfault⟩ :=
    exists_of_expressionTree_eq_ok hsource h
  obtain ⟨hproper, hreading⟩ := hgrammar root hg
  have hclean : ¬ root.Faulty := fun hf => Lower.errorsBelow_ne_nil hreading.marked hf herrors
  have hmem := mem_of_onlyStatement?_eq_some hx
  have hxclean : ¬ x.Faulty := fun hf => hclean (.deeper hmem hf)
  obtain ⟨pieces, semicolon, hchildren, hone, hend, hkinds, hcount⟩ :=
    hreading.statement x hmem hxclean hkind hstop
  have hfits := hproper.fits.children x hmem
  obtain ⟨hlist, hsize⟩ := wrapped_expression hsource
  have hlength : x.children.length - 1 = pieces.length := by
    rw [hchildren, List.length_append, List.length_singleton, Nat.add_sub_cancel]
  have hsemicolon : source.utf8ByteSize - 1 = semicolon.start := by omega
  have hbase : Text.Boundary source.toList Parse.tagBefore.utf8ByteSize :=
    hlist ▸ text_boundary text [';']
  have hle : Parse.tagBefore.utf8ByteSize ≤ x.start :=
    (hproper.beside x hmem).resolve_right (by omega)
  have haccounts := accounts_upTo hsource hproper hmem hstop (x.children.length - 1)
  obtain ⟨faults, htook⟩ := Lower.upTo_took (s := ⟨source.toList, Parse.tagBefore.utf8ByteSize⟩)
    hbase hfits (boundary_semicolon hsource) (x.children.length - 1)
  rw [hlength, hsemicolon] at haccounts htook hfault
  rw [hlength, hsemicolon]
  refine ⟨root, _, hg, rfl, ?_, fun hfirst => ?_⟩
  · have hspan := (Lower.upTo_walk (s := ⟨source.toList, Parse.tagBefore.utf8ByteSize⟩) hbase
      (hproper.nested.children x hmem) (statement_walked hproper hmem) hle
      (hsemicolon ▸ boundary_semicolon hsource) pieces.length).pos_eq
    rw [Lower.pos_upTo hbase (hproper.nested.children x hmem)
      (statement_walked hproper hmem) hle hchildren, Lower.start] at hspan
    dsimp only at hspan
    have htaken := htook.tokens_eq hlist (Text.byteLength_toList _).symm (by
      rw [Text.byteLength_toList]
      omega)
    rw [(Green.toTree_holds_text htaken htook.nonempty).1, String.ofList_toList]
  · obtain ⟨herrors, hsolids⟩ := Lower.upTo_quiet
      (s := ⟨source.toList, Parse.tagBefore.utf8ByteSize⟩) hbase hfits
      (hreading.marked.children x hmem) hxclean (hreading.covered x hmem hxclean) hkind hchildren
      hkinds (hfirst root x hg hx)
    have hlost : ¬ Lower.Flawed (Lower.upTo ⟨source.toList, Parse.tagBefore.utf8ByteSize⟩ x
        semicolon.start pieces.length).2 := fun hflawed =>
      hflawed.elim (· herrors) (by simp [hfault])
    exact ⟨hsolids.trans hcount.le, haccounts.leaves.mono fun _ _ ho => ho.mono hlost, fun n hn =>
      ⟨fun hk => hlost ((haccounts.nodes n hn).1 hk), (haccounts.nodes n hn).2⟩⟩

/-- Of every text that is taken as a fragment, of whatever kind, the tree holds the text again and
nothing else. Its only solid node is the one of interest, no node is an error, and an error token is
a piece of the grammar's tree. Of an expression all but the first needs that no comment stands
before it. -/
theorem parse_exact
    (hgrammar : ∀ source root, wrapped? kind text = some source → grammar source = some root →
      root.Proper source.toList Parse.tagBefore.utf8ByteSize ∧
        (kind = .expression → Parse.Reading source root))
    (hparse : parse grammar text kind = .ok f) :
    f.tree.text = text ∧
      ((∀ source, kind = .expression → wrapped? kind text = some source →
        StatementFirst grammar source) → Sole f (Placed grammar kind text)) := by
  unfold parse at hparse
  cases htree : treeOf grammar kind text with
  | error e =>
    rw [htree] at hparse
    cases hparse
  | ok tree =>
  rw [htree] at hparse
  dsimp only at hparse
  split at hparse
  next node rest hnode =>
    cases hparse
    cases kind with
    | token =>
      obtain ⟨word, hword, rfl⟩ := exists_of_tokenTree_eq_ok htree
      refine ⟨by rw [Green.text_toTree]; simp [Green.tokensAll, Green.tokens], fun _ => ?_⟩
      refine sole_of_nodes hnode (List.length_filter_le ..) (fun n hn => by cases hn) ?_
      intro before lost after hsplit
      have hmem : (Kind.errorToken, lost) ∈ Green.leavesAll [.token word text] := by
        rw [hsplit]
        exact List.mem_append_right _ List.mem_cons_self
      cases List.mem_singleton.1 hmem
      exact absurd rfl (Token.ne_errorToken_of_classify hword)
    | statement =>
      obtain ⟨root, gs, hg, rfl, htext, hsolids, haccounts⟩ := statementTree_accounts
        (fun root hroot => (hgrammar _ root rfl hroot).1) htree
      refine ⟨htext, fun _ => sole_of_nodes hnode hsolids haccounts.nodes ?_⟩
      intro before word after hsplit
      obtain ⟨x, hx⟩ := placed_of_origin haccounts.leaves hsplit
      exact ⟨_, root, x, rfl, hg, hx⟩
    | expression =>
      obtain ⟨root, gs, hg, rfl, htext, hrest⟩ := expressionTree_accounts
        (fun root hroot => (hgrammar _ root rfl hroot).imp_right (· rfl)) htree
      refine ⟨htext, fun hfirst => ?_⟩
      obtain ⟨hsolids, haccounts⟩ := hrest (hfirst _ rfl rfl)
      refine sole_of_nodes hnode hsolids haccounts.nodes ?_
      intro before word after hsplit
      obtain ⟨x, hx⟩ := placed_of_origin haccounts.leaves hsplit
      exact ⟨_, root, x, rfl, hg, hx⟩
  next => cases hparse

/-- An integer of one byte and a semicolon, from an offset on. -/
def integerStatement (n : Nat) : Concrete :=
  Parse.piece "expression_statement" n (n + 2)
    [Parse.piece "integer" n (n + 1) [], Parse.piece ";" (n + 1) (n + 2) []]

def integerFile (comments : List Concrete) (n : Nat) : Concrete :=
  Parse.piece "program" 0 (n + 2) (Parse.piece "php_tag" 0 5 [] :: comments ++ [integerStatement n])

theorem covered_piece (text : List Char) {kind : String} (start stop : Nat)
    (hkind : kind ∈ ["php_tag", "comment", "integer", ";"]) :
    (Parse.piece kind start stop []).Covered text := by
  refine .token fun place treatment hof => ?_
  simp only [List.mem_cons, List.not_mem_nil, or_false] at hkind
  rcases hkind with rfl | rfl | rfl | rfl
  iterate 3
    cases hof
    trivial
  change (Treatment.scanned _ _).map _ = _ at hof
  cases hscanned : Treatment.scanned text (Parse.piece ";" start stop []).head with
  | error fault =>
    rw [hscanned] at hof
    cases hof
  | ok found =>
    rw [hscanned] at hof
    cases hof
    trivial

theorem reading_integerFile (hascii : ∀ c ∈ source.toList, c.utf8Size = 1) {n : Nat}
    (hlength : source.toList.length = n + 2) (hn : 6 ≤ n) {comments : List Concrete}
    (hcomments : comments = [] ∨ comments = [Parse.piece "comment" 6 n []]) :
    (integerFile comments n).Proper source.toList Parse.tagBefore.utf8ByteSize ∧
      Parse.Reading source (integerFile comments n) := by
  have hchild : ∀ x ∈ (integerFile comments n).children,
      x = Parse.piece "php_tag" 0 5 [] ∨ x = Parse.piece "comment" 6 n [] ∨ x = integerStatement n := by
    intro x hx
    rcases List.mem_cons.1 hx with rfl | hx
    · exact .inl rfl
    · rcases List.mem_append.1 hx with hx | hx
      · rcases hcomments with rfl | rfl
        · cases hx
        · exact .inr (.inl (List.mem_singleton.1 hx))
      · exact .inr (.inr (List.mem_singleton.1 hx))
  have hleaf : ∀ kind {start stop : Nat}, start ≤ stop → stop ≤ n + 2 →
      (Parse.piece kind start stop []).Fits source.toList := fun kind _ _ hle hstop =>
    Parse.fits_piece hascii kind hle (hstop.trans_eq hlength.symm) (by simp)
  have hfits : (integerStatement n).Fits source.toList :=
    Parse.fits_piece hascii _ (by omega) hlength.ge (by
      simpa using ⟨hleaf "integer" (by omega) (by omega), hleaf ";" (by omega) (by omega)⟩)
  refine ⟨⟨?_, ?_, .inl rfl, ?_⟩, ⟨?_, ?_, ?_⟩⟩
  · refine Parse.fits_piece hascii _ (by omega) hlength.ge fun x hx => ?_
    rcases hchild x hx with rfl | rfl | rfl
    exacts [hleaf _ (by omega) (by omega), hleaf _ hn (by omega), hfits]
  · rcases hcomments with rfl | rfl <;>
      simp [integerFile, integerStatement, Parse.piece, Concrete.start, Concrete.stop] <;> omega
  · intro x hx
    rcases hchild x hx with rfl | rfl | rfl
    exacts [.inr (by decide), .inl (Nat.le_refl 6), .inl hn]
  · rcases hcomments with rfl | rfl <;> simp [integerFile, integerStatement, Parse.piece]
  · intro x hx _
    rcases hchild x hx with rfl | rfl | rfl
    · exact covered_piece _ _ _ (by decide)
    · exact covered_piece _ _ _ (by decide)
    · refine .pieces ⟨Text.blank_of_le le_rfl, Text.blank_of_le le_rfl, Text.blank_of_le le_rfl⟩
        (fun h => absurd (show "expression_statement" = "else_clause" from h) (by decide)) ?_
      rw [integerStatement]
      simpa [Parse.piece, Concrete.children] using
        ⟨covered_piece _ n (n + 1) (by decide), covered_piece _ (n + 1) (n + 2) (by decide)⟩
  · intro x hx _ hkind _
    rcases hchild x hx with rfl | rfl | rfl
    · exact absurd (show "php_tag" = "expression_statement" from hkind) (by decide)
    · exact absurd (show "comment" = "expression_statement" from hkind) (by decide)
    · refine ⟨[Parse.piece "integer" n (n + 1) []], Parse.piece ";" (n + 1) (n + 2) [], rfl, rfl, rfl,
        fun y hy => ?_, rfl⟩
      rw [List.mem_singleton.1 hy]
      exact .inr (by decide : "integer" ∈ Concrete.expressionKinds)

/-- An integer by itself. -/
theorem parse_integer :
    ∃ f, parse (fun _ => some (integerFile [] 6)) "1" .expression = .ok f ∧ f.tree.text = "1" ∧
      f.tree.solidChildren f.tree.root = [f.node] ∧
      ∀ id ∈ f.tree.descendants f.tree.root, f.tree.kind id ≠ .errorNode := by
  have hparse : parse (fun _ => some (integerFile [] 6)) "1" .expression =
      .ok ⟨(Green.node .sourceFile [.node .literal [.token .intNumber "1"]]).toTree, 1⟩ := by
    decide +kernel
  have h := parse_exact (fun source root hsource hroot => by
    cases hsource
    cases hroot
    refine (reading_integerFile (by simp [Parse.tagBefore, Char.utf8Size]) (by decide)
      (Nat.le_refl 6) (.inl rfl)).imp_right fun hreading _ => hreading) hparse
  have hsole := h.2 fun source _ hsource root x hroot hx => by
    cases hsource
    cases hroot
    cases hx
    exact Text.blank_of_le (Nat.le_refl 6)
  exact ⟨_, hparse, h.1, hsole.node, hsole.errorNode⟩

/-- A comment before the integer is taken for lost text: it becomes an error token, which counts as
solid and stands first. -/
theorem exists_parse_not_sole :
    ∃ grammar text f,
      (∀ source root, wrapped? .expression text = some source → grammar source = some root →
        root.Proper source.toList Parse.tagBefore.utf8ByteSize ∧ Parse.Reading source root) ∧
        parse grammar text .expression = .ok f ∧
        f.tree.solidChildren f.tree.root ≠ [f.node] ∧ f.tree.kind f.node = .errorToken := by
  refine ⟨fun _ => some (integerFile [Parse.piece "comment" 6 10 []] 10), "/**/1",
    ⟨(Green.node .sourceFile
      [.token .errorToken "/**/", .node .literal [.token .intNumber "1"]]).toTree, 0⟩, ?_, ?_, ?_, ?_⟩
  · intro source root hsource hroot
    cases hsource
    cases hroot
    exact reading_integerFile (by simp [Parse.tagBefore, Char.utf8Size]) (by decide) (by decide)
      (.inr rfl)
  · decide +kernel
  · decide
  · decide

end Fragment

end PhpLint
