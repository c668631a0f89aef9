import Mathlib.Data.List.SplitBy
import PhpLint.Concrete.Lowering
import PhpLint.Proofs.Concrete.Green
import PhpLint.Proofs.Text.Bytes

/-! Lowering loses nothing. Whatever the concrete tree looks like, the tokens that a piece leaves
behind are the text between the cursor before and the cursor after, none of them empty. Pieces that
overlap or stand out of order only leave less behind, for the cursor never goes back. -/

namespace PhpLint

/-- Every piece begins and ends between characters, and does not end before it begins. -/
inductive Concrete.Fits (text : List Char) : Concrete → Prop
  | mk {head : Head} {children : List Concrete} :
    Text.Boundary text head.start → Text.Boundary text head.stop → head.start ≤ head.stop →
    (∀ c ∈ children, Fits text c) → Fits text ⟨head, children⟩

theorem Concrete.Fits.start {text : List Char} {x : Concrete} (h : x.Fits text) :
    Text.Boundary text x.start := by
  obtain ⟨hstart, -, -, -⟩ := h
  exact hstart

theorem Concrete.Fits.stop {text : List Char} {x : Concrete} (h : x.Fits text) :
    Text.Boundary text x.stop := by
  obtain ⟨-, hstop, -, -⟩ := h
  exact hstop

theorem Concrete.Fits.start_le_stop {text : List Char} {x : Concrete} (h : x.Fits text) :
    x.start ≤ x.stop := by
  obtain ⟨-, -, hle, -⟩ := h
  exact hle

theorem Concrete.Fits.children {text : List Char} {x : Concrete} (h : x.Fits text) :
    ∀ c ∈ x.children, c.Fits text := by
  obtain ⟨-, -, -, hchildren⟩ := h
  exact hchildren

@[elab_as_elim]
theorem Concrete.induction {motive : Concrete → Prop}
    (mk : ∀ head children, (∀ c ∈ children, motive c) → motive ⟨head, children⟩)
    (c : Concrete) : motive c := by
  obtain ⟨head, children⟩ := c
  exact mk head children fun c _ => induction mk c

namespace Lower

/-- The cursor stands where the text it has left begins. -/
def Aligned (s : Source) (c : Cursor) : Prop :=
  ∃ before, s.text = before ++ c.rest ∧ Text.byteLength before = c.pos

/-- From `c` to `d` the nodes `gs` were made of the text in between; `faults` tells whether a text
could not be scanned on the way. -/
structure Took (s : Source) (c : Cursor) (gs : List Green) (d : Cursor) (faults : Prop) : Prop where
  rest_eq : c.rest = (Green.tokensAll gs).flatMap String.toList ++ d.rest
  nonempty : ∀ text ∈ Green.tokensAll gs, text ≠ ""
  aligned : Aligned s d
  fault_iff : d.fault.isSome = true ↔ c.fault.isSome = true ∨ faults

variable {s : Source} {c d e : Cursor} {gs hs : List Green} {p q : Prop} {stop : Nat}

namespace Took

theorem nil (h : Aligned s c) : Took s c [] c False := ⟨rfl, by simp [Green.tokensAll], h, by simp⟩

theorem append (h : Took s c gs d p) (h' : Took s d hs e q) : Took s c (gs ++ hs) e (p ∨ q) where
  rest_eq := by
    rw [h.rest_eq, h'.rest_eq, Green.tokensAll_append, List.flatMap_append, List.append_assoc]
  nonempty := by
    rw [Green.tokensAll_append]
    exact fun text htext => (List.mem_append.1 htext).elim (h.nonempty text) (h'.nonempty text)
  aligned := h'.aligned
  fault_iff := by rw [h'.fault_iff, h.fault_iff, or_assoc]

/-- A node around what was made changes no text. -/
theorem node (h : Took s c gs d p) (kind : Kind) : Took s c [.node kind gs] d p := by
  have htokens : Green.tokensAll [.node kind gs] = Green.tokensAll gs := by
    rw [Green.tokensAll, Green.tokens, Green.tokensAll, List.append_nil]
  exact ⟨htokens ▸ h.rest_eq, htokens ▸ h.nonempty, h.aligned, h.fault_iff⟩

theorem congr (h : Took s c gs d p) (hpq : p ↔ q) : Took s c gs d q := propext hpq ▸ h

theorem of_report {errors : List ParseError} (h : Took s { c with errors } gs d p) :
    Took s c gs d p := ⟨h.rest_eq, h.nonempty, h.aligned, h.fault_iff⟩

end Took

/-- A cut takes the text up to the offset, whole. -/
theorem exists_cut (h : Aligned s c) (hstop : Text.Boundary s.text stop) (hle : c.pos ≤ stop) :
    ∃ piece rest, cut stop c = (piece, { c with pos := stop, rest }) ∧ c.rest = piece ++ rest ∧
      Aligned s { c with pos := stop, rest } ∧ (c.pos < stop → piece ≠ []) := by
  obtain ⟨before, htext, hpos⟩ := h
  rw [htext] at hstop
  obtain ⟨piece, rest, hrest, hlen⟩ := hstop.exists_piece (hpos ▸ hle)
  have hsub : stop - c.pos = Text.byteLength piece := by omega
  refine ⟨piece, rest, ?_, hrest, ⟨before ++ piece, ?_, ?_⟩, fun hlt hnil => ?_⟩
  · change ((Text.splitBytes (stop - c.pos) c.rest).1, _) = _
    rw [hsub, hrest, Text.splitBytes_byteLength]
  · rw [htext, hrest, List.append_assoc]
  · rw [Text.byteLength_append, hlen]
  · rw [hnil, Text.byteLength] at hsub
    omega

/-- Whatever the cursor, the nodes made are the text gone over. -/
def Lossless (s : Source) (m : Lower (List Green)) (faults : Prop) : Prop :=
  ∀ c, Aligned s c → Took s c (m c).1 (m c).2 faults

namespace Lossless

variable {m n k : Lower (List Green)} {r : Prop}

theorem nothing : Lossless s (pure []) False := fun _ hc => .nil hc

theorem congr (h : Lossless s m p) (hpq : p ↔ q) : Lossless s m q := propext hpq ▸ h

theorem report (h : Lossless s m p) (errors : List ParseError) :
    Lossless s (do Lower.report errors; m) p := fun c hc =>
  (h { c with errors := c.errors ++ errors } hc).of_report

theorem note (h : Lossless s m p) (fault : Token.Fault) :
    Lossless s (do Lower.note fault; m) True := fun c hc => by
  have ht := h { c with fault := c.fault.or (some fault) } hc
  exact ⟨ht.rest_eq, ht.nonempty, ht.aligned, ht.fault_iff.trans (by simp)⟩

theorem append (hm : Lossless s m p) (hn : Lossless s n q) :
    Lossless s (do let a ← m; let b ← n; return a ++ b) (p ∨ q) := fun c hc =>
  (hm c hc).append (hn _ (hm c hc).aligned)

/-- A node of its own around two parts, behind a first one. -/
theorem inside (hm : Lossless s m p) (hn : Lossless s n q) (hk : Lossless s k r) (kind : Kind) :
    Lossless s (do
      let before ← m
      let inner ← n
      let after ← k
      return before ++ [.node kind (inner ++ after)]) (p ∨ q ∨ r) := fun c hc => by
  have h1 := hm c hc
  have h2 := hn _ h1.aligned
  exact h1.append ((h2.append (hk _ h2.aligned)).node kind)

theorem wrapped (hm : Lossless s m p) (hn : Lossless s n q) (kind : Kind) :
    Lossless s (do let before ← m; let inner ← n; return before ++ [.node kind inner]) (p ∨ q) :=
  fun c hc => (hm c hc).append ((hn _ (hm c hc).aligned).node kind)

/-- A node around the middle part alone. -/
theorem followed (hm : Lossless s m p) (hn : Lossless s n q) (hk : Lossless s k r) (kind : Kind) :
    Lossless s (do
      let before ← m
      let inner ← n
      let others ← k
      return before ++ .node kind inner :: others) (p ∨ q ∨ r) := fun c hc => by
  have h1 := hm c hc
  have h2 := hn _ h1.aligned
  exact h1.append ((h2.node kind).append (hk _ h2.aligned))

end Lossless

/-! The text that no piece claims, and single tokens. -/

theorem tokensAll_map_gapToken (runs : List (List Char)) :
    Green.tokensAll (runs.map gapToken) = runs.map String.ofList := by
  induction runs with
  | nil => rfl
  | cons run runs ih => rw [List.map_cons, Green.tokensAll, ih]; rfl

theorem gap_eq (s : Source) (stop : Nat) (c : Cursor) :
    gap s stop c = if stop ≤ c.pos then ([], c) else
      ((runs (cut stop c).1).map gapToken,
        { (cut stop c).2 with
          errors := (cut stop c).2.errors ++ gapErrors s c.pos (runs (cut stop c).1) }) := by
  rw [gap]
  change (if stop ≤ c.pos then _ else _ : Lower _) c = _
  split <;> rfl

theorem le_pos_gap (s : Source) (stop : Nat) (c : Cursor) : stop ≤ (gap s stop c).2.pos := by
  rw [gap_eq]
  split
  next hle => exact hle
  next => exact Nat.le_refl stop

theorem gap_lossless (hstop : Text.Boundary s.text stop) : Lossless s (gap s stop) False := by
  intro c hc
  rw [gap_eq]
  split
  next => exact .nil hc
  next hle =>
    obtain ⟨piece, rest, hcut, hrest, haligned, -⟩ := exists_cut hc hstop (Nat.le_of_not_le hle)
    rw [hcut]
    refine ⟨?_, ?_, haligned, by simp⟩
    · have hflat : (runs piece).flatten = piece := List.flatten_splitBy ..
      rw [tokensAll_map_gapToken, List.flatMap_map, hrest]
      simp only [String.toList_ofList, List.flatMap_id', hflat]
    · rw [tokensAll_map_gapToken]
      simp only [List.mem_map, forall_exists_index, and_imp]
      rintro text run hrun rfl
      have hne : run ≠ [] := List.ne_nil_of_mem_splitBy hrun
      simpa [← String.toList_inj] using hne

theorem token_took (hc : Aligned s c) (hstop : Text.Boundary s.text stop) (hlt : c.pos < stop)
    (kind : Kind) :
    Took s c [.token kind (.ofList (cut stop c).1)] (cut stop c).2 False := by
  obtain ⟨piece, rest, hcut, hrest, haligned, hne⟩ := exists_cut hc hstop hlt.le
  rw [hcut]
  refine ⟨?_, ?_, haligned, by simp⟩
  · simpa [Green.tokensAll, Green.tokens] using hrest
  · have hpiece := hne hlt
    simp only [Green.tokensAll, Green.tokens, List.append_nil, List.forall_mem_singleton]
    exact fun he => hpiece (by rw [← String.toList_ofList (l := piece), he]; rfl)

theorem leaf_lossless {x : Concrete} (hstart : Text.Boundary s.text x.start)
    (hstop : Text.Boundary s.text x.stop) (kind : Kind) : Lossless s (leaf s kind x) False := by
  have hbody : Lossless s (do
      let before ← gap s x.start
      if x.stop ≤ (← get).pos then return before
      return before ++ [.token kind (.ofList (← cut x.stop))]) False := by
    intro c hc
    have hgap := gap_lossless hstart c hc
    by_cases hle : x.stop ≤ (gap s x.start c).2.pos
    · change Took s c ((if x.stop ≤ (gap s x.start c).2.pos then _ else _ : Lower _) _).1
        ((if x.stop ≤ (gap s x.start c).2.pos then _ else _ : Lower _) _).2 _
      rw [if_pos hle]
      exact hgap
    · change Took s c ((if x.stop ≤ (gap s x.start c).2.pos then _ else _ : Lower _) _).1
        ((if x.stop ≤ (gap s x.start c).2.pos then _ else _ : Lower _) _).2 _
      rw [if_neg hle]
      have htoken := token_took hgap.aligned hstop (Nat.lt_of_not_le hle) kind
      exact (hgap.append htoken).congr (or_self_iff)
  rw [leaf]
  split
  · exact hbody.report _
  · exact hbody

end Lower

/-! What a piece turns into decides which pieces are gone into. Its surroundings have no say in
that: they tell names and parentheses apart only. -/

namespace Treatment

/-- The pieces that are lowered inside a piece. -/
def pieces (children : List Concrete) : Treatment → List Concrete
  | .leaf _ | .wrapped .. => []
  | .composite _ | .transparent | .targets => children
  | .keywordCall _ _ callee => children.eraseIdx callee
  | .elseIf body => children.eraseIdx body ++ (children[body]?.map Concrete.children).getD []

theorem pieces_ofName (p : Place) (c : Concrete) : (ofName p c.head).pieces c.children = [] := by
  simp only [ofName]
  split <;> rfl

/-- The treatment of a kind without a rule of its own, wherever it stands. -/
def ofMapped (text : List Char) (c : Concrete) : Except Token.Fault Treatment :=
  match nodeKind? c.kind with
  | some mapped => .ok (.composite mapped)
  | none => if c.children.isEmpty then ofLeaf text c.head else .ok .transparent

/-- Where a kind is mapped to a node, leaving the node out keeps the same pieces. -/
theorem map_pieces_ite (c : Concrete) {b : Bool} {t : Except Token.Fault Treatment}
    (h : b = true → t.map (pieces c.children) = .ok c.children) :
    (if b = true then .ok .transparent else t).map (pieces c.children) =
      t.map (pieces c.children) := by
  cases b with
  | false => rfl
  | true => exact (h rfl).symm

theorem map_pieces_of (text : List Char) (p q : Place) (c : Concrete) :
    (of text p c).map (pieces c.children) = (of text q c).map (pieces c.children) := by
  have hclause : ∀ p : Place, (c.kind == "namespace_use_clause" &&
      p.parentKind == "namespace_use_group") = true → nodeKind? c.kind = some .useItem := by
    intro p hp
    rw [Bool.and_eq_true, beq_iff_eq] at hp
    rw [hp.1]
    rfl
  have hparen : ∀ p : Place, (c.kind == "parenthesized_expression" &&
      conditionParents.contains p.parentKind) = true → nodeKind? c.kind = some .parenExpr := by
    intro p hp
    rw [Bool.and_eq_true, beq_iff_eq] at hp
    rw [hp.1]
    rfl
  have hother : ∀ p : Place,
      (if (c.kind == "parenthesized_expression" &&
          conditionParents.contains p.parentKind) = true then .ok .transparent
        else if (c.kind == "namespace_use_clause" &&
          p.parentKind == "namespace_use_group") = true then .ok .transparent
        else ofMapped text c : Except Token.Fault Treatment).map (pieces c.children) =
      (ofMapped text c).map (pieces c.children) := by
    intro p
    rw [map_pieces_ite c, map_pieces_ite c]
    · intro hp
      rw [ofMapped, hclause p hp]
      rfl
    · intro hp
      rw [ofMapped, hparen p hp]
      split <;> rfl
  unfold of
  split
  all_goals try rfl
  · simp only [Except.map, pieces_ofName]
  · simp only [Except.map, pieces_ofName]
  · simp only [Except.map, pieces_ofName]
  · split
    · rfl
    · exact (hother p).trans (hother q).symm

end Treatment

namespace Lower

/-- The pieces that are lowered inside a piece, or why it cannot be told. -/
def inside (s : Source) (x : Concrete) : Except Token.Fault (List Concrete) :=
  if x.head.missing then .ok []
  else if x.start = x.stop ∨ x.stop ≤ s.base then .ok []
  else if x.head.error then .ok x.children
  else (Treatment.of s.text ⟨none, none, none, false⟩ x).map (Treatment.pieces x.children)

/-- Somewhere in a piece a text is met that cannot be scanned. -/
inductive Faulting (s : Source) : Concrete → Prop
  | scanned {x : Concrete} {fault : Token.Fault} : inside s x = .error fault → Faulting s x
  | deeper {x y : Concrete} {ys : List Concrete} :
    inside s x = .ok ys → y ∈ ys → Faulting s y → Faulting s x

def RoleFaulting (s : Source) : Role → Concrete → Prop
  | .plain, x => Faulting s x
  | .skip, _ | .keyword _, _ => False
  | .leading, x => ∃ y ∈ x.children.take (leadingCount x.children), Faulting s y
  | .trailing, x => ∃ y ∈ x.children.drop (leadingCount x.children), Faulting s y

variable {s : Source} {x : Concrete} {xs ys : List Concrete}

@[simp] theorem roleFaulting_skip : RoleFaulting s .skip x ↔ False := Iff.rfl

@[simp] theorem roleFaulting_keyword {kind : Kind} : RoleFaulting s (.keyword kind) x ↔ False :=
  Iff.rfl

theorem faulting_iff_of_ok (h : inside s x = .ok ys) : Faulting s x ↔ ∃ y ∈ ys, Faulting s y := by
  constructor
  · rintro (h' | ⟨h', hy, hf⟩)
    · rw [h] at h'
      cases h'
    · rw [h] at h'
      cases h'
      exact ⟨_, hy, hf⟩
  · rintro ⟨y, hy, hf⟩
    exact .deeper h hy hf

theorem exists_plain_iff : (∃ (i : Nat) (x : Concrete), xs[i]? = some x ∧ RoleFaulting s .plain x) ↔
    ∃ x ∈ xs, Faulting s x := by
  constructor
  · rintro ⟨i, x, hx, hf⟩
    exact ⟨x, List.mem_of_getElem? hx, hf⟩
  · rintro ⟨x, hx, hf⟩
    obtain ⟨i, hi⟩ := List.getElem?_of_mem hx
    exact ⟨i, x, hi, hf⟩

/-- One child in a role of its own, the others in another. -/
theorem exists_role_iff {body : Nat} {role other : Role} :
    (∃ (i : Nat) (x : Concrete), xs[i]? = some x ∧
      RoleFaulting s (if 0 + i = body then role else other) x) ↔
    (∃ x, xs[body]? = some x ∧ RoleFaulting s role x) ∨
      ∃ (i : Nat) (x : Concrete), i ≠ body ∧ xs[i]? = some x ∧ RoleFaulting s other x := by
  simp only [Nat.zero_add]
  constructor
  · rintro ⟨i, x, hx, hf⟩
    by_cases hi : i = body
    · rw [if_pos hi] at hf
      exact .inl ⟨x, hi ▸ hx, hf⟩
    · rw [if_neg hi] at hf
      exact .inr ⟨i, x, hi, hx, hf⟩
  · rintro (⟨x, hx, hf⟩ | ⟨i, x, hi, hx, hf⟩)
    · exact ⟨body, x, hx, by rwa [if_pos rfl]⟩
    · exact ⟨i, x, hx, by rwa [if_neg hi]⟩

theorem exists_others_iff {body : Nat} :
    (∃ (i : Nat) (x : Concrete), i ≠ body ∧ xs[i]? = some x ∧ RoleFaulting s .plain x) ↔
    ∃ x ∈ xs.eraseIdx body, Faulting s x := by
  simp only [List.mem_eraseIdx_iff_getElem?, RoleFaulting]
  constructor
  · rintro ⟨i, x, hi, hx, hf⟩
    exact ⟨x, ⟨i, hi, hx⟩, hf⟩
  · rintro ⟨x, ⟨i, hi, hx⟩, hf⟩
    exact ⟨i, x, hi, hx, hf⟩

/-- The two halves of a nested statement are all of it. -/
theorem leading_or_trailing_iff :
    RoleFaulting s .leading x ∨ RoleFaulting s .trailing x ↔ ∃ y ∈ x.children, Faulting s y := by
  conv_rhs => rw [← List.take_append_drop (leadingCount x.children) x.children]
  simp only [RoleFaulting, List.mem_append, or_and_right, exists_or]

theorem elseIf_iff {body : Nat} :
    ((∃ (i : Nat) (x : Concrete), xs[i]? = some x ∧
        RoleFaulting s (if 0 + i = body then .leading else .plain) x) ∨
      ∃ (i : Nat) (x : Concrete), xs[i]? = some x ∧
        RoleFaulting s (if 0 + i = body then .trailing else .skip) x) ↔
    ∃ x ∈ xs.eraseIdx body ++ (xs[body]?.map Concrete.children).getD [], Faulting s x := by
  rw [exists_role_iff, exists_role_iff, exists_others_iff]
  simp only [List.mem_append, or_and_right, exists_or, roleFaulting_skip, and_false, exists_false,
    or_false]
  rw [or_right_comm, or_comm, ← exists_or]
  cases xs[body]? with
  | none => simp
  | some x => simp [← and_or_left, leading_or_trailing_iff]

/-- The children in their roles, each of them lossless in any role. -/
theorem lowerAll_lossless
    (h : ∀ x ∈ xs, ∀ place role, Lossless s (lower s place role x) (RoleFaulting s role x))
    (parent : Head) (role : Nat → Role) (i : Nat) (prev : Option String) (named : Bool) :
    Lossless s (lowerAll s parent role i prev named xs)
      (∃ (j : Nat) (x : Concrete), xs[j]? = some x ∧ RoleFaulting s (role (i + j)) x) := by
  induction xs generalizing i prev named with
  | nil =>
    rw [lowerAll]
    exact Lossless.nothing.congr (by simp)
  | cons x xs ih =>
    rw [List.forall_mem_cons] at h
    rw [lowerAll]
    refine ((h.1 _ (role i)).append (ih h.2 (i + 1) _ _)).congr ⟨?_, ?_⟩
    · rintro (hf | ⟨j, y, hy, hf⟩)
      · exact ⟨0, x, rfl, hf⟩
      · exact ⟨j + 1, y, hy, by rwa [Nat.add_comm j, ← Nat.add_assoc]⟩
    · rintro ⟨j, y, hy, hf⟩
      cases j with
      | zero =>
        cases hy
        exact .inl hf
      | succ j => exact .inr ⟨j, y, hy, by rwa [Nat.add_assoc, Nat.add_comm 1]⟩

theorem lowerAll_plain_lossless
    (h : ∀ x ∈ xs, ∀ place role, Lossless s (lower s place role x) (RoleFaulting s role x))
    (parent : Head) : Lossless s (lowerAll s parent (fun _ => .plain) 0 none false xs)
      (∃ x ∈ xs, Faulting s x) :=
  (lowerAll_lossless h parent _ 0 none false).congr exists_plain_iff

/-- What an element under construction has so far, `c` being where it began. -/
theorem targetElement_took {c d : Cursor} {run : Option (List Green)} {p : Prop}
    (h : Took s c (run.getD []) d p) : Took s c (targetElement run) d p := by
  cases run with
  | none => exact h
  | some gs => exact h.node .arrayElement

theorem lowerTargets_took (hs : ∀ x ∈ xs, Text.Boundary s.text x.start)
    (h : ∀ x ∈ xs, ∀ place role, Lossless s (lower s place role x) (RoleFaulting s role x))
    (parent : Head) (run : Option (List Green)) (prev : Option String) (named : Bool)
    {c d : Cursor} {p : Prop} (hrun : Took s c (run.getD []) d p) :
    Took s c (lowerTargets s parent run prev named xs d).1
      (lowerTargets s parent run prev named xs d).2 (p ∨ ∃ x ∈ xs, Faulting s x) := by
  induction xs generalizing run prev named c d p with
  | nil =>
    rw [lowerTargets]
    exact (targetElement_took hrun).congr (by simp)
  | cons x xs ih =>
    rw [List.forall_mem_cons] at h hs
    have hx := h.1 (placeIn parent prev named x xs) .plain
    have hcons : (∃ y ∈ x :: xs, Faulting s y) ↔ Faulting s x ∨ ∃ y ∈ xs, Faulting s y := by
      simp only [List.mem_cons, exists_eq_or_imp]
    rw [hcons, lowerTargets.eq_def]
    dsimp only
    by_cases hdelimiter : isDelimiter x = true
    · rw [if_pos hdelimiter]
      have h1 := hx d hrun.aligned
      have h2 := ih hs.2 h.2 none (some x.kind) (named || Treatment.isNameKind x.kind)
        (.nil h1.aligned)
      refine (((targetElement_took hrun).append h1).append h2).congr ?_
      rw [false_or, or_assoc, RoleFaulting]
    · rw [if_neg hdelimiter]
      cases run with
      | some gs =>
        have h1 := hx d hrun.aligned
        exact (ih hs.2 h.2 (some _) _ _ (hrun.append h1)).congr or_assoc
      | none =>
        by_cases hcomment : x.kind = "comment"
        · simp only [if_pos hcomment]
          have h1 := hx d hrun.aligned
          have h2 := ih hs.2 h.2 none (some x.kind) (named || Treatment.isNameKind x.kind)
            (.nil h1.aligned)
          refine ((hrun.append h1).append h2).congr ?_
          rw [false_or, or_assoc, RoleFaulting]
        · simp only [if_neg hcomment]
          have hgap := gap_lossless hs.1 d hrun.aligned
          have h1 := hx _ hgap.aligned
          have h2 := ih hs.2 h.2 (some _) (some x.kind)
            (named || Treatment.isNameKind x.kind) h1
          refine (hrun.append (hgap.append h2)).congr ?_
          rw [false_or, RoleFaulting]

theorem lowerTargets_lossless (hs : ∀ x ∈ xs, Text.Boundary s.text x.start)
    (h : ∀ x ∈ xs, ∀ place role, Lossless s (lower s place role x) (RoleFaulting s role x))
    (parent : Head) :
    Lossless s (lowerTargets s parent none none false xs) (∃ x ∈ xs, Faulting s x) := fun _ hc =>
  (lowerTargets_took hs h parent none none false (.nil hc)).congr (false_or _).to_iff

theorem exists_take_iff {n : Nat} : (∃ (i : Nat) (x : Concrete), xs[i]? = some x ∧
      RoleFaulting s (if 0 + i < n then .plain else .skip) x) ↔
    ∃ x ∈ xs.take n, Faulting s x := by
  simp only [Nat.zero_add]
  rw [← exists_plain_iff]
  constructor
  · rintro ⟨i, x, hx, hf⟩
    by_cases hi : i < n
    · rw [if_pos hi] at hf
      exact ⟨i, x, by rwa [List.getElem?_take_of_lt hi], hf⟩
    · rw [if_neg hi] at hf
      exact hf.elim
  · rintro ⟨i, x, hx, hf⟩
    rw [List.getElem?_take] at hx
    split at hx
    next hi => exact ⟨i, x, hx, by rwa [if_pos hi]⟩
    next => cases hx

theorem exists_drop_iff {n : Nat} : (∃ (i : Nat) (x : Concrete), xs[i]? = some x ∧
      RoleFaulting s (if 0 + i < n then .skip else .plain) x) ↔
    ∃ x ∈ xs.drop n, Faulting s x := by
  simp only [Nat.zero_add]
  rw [← exists_plain_iff]
  constructor
  · rintro ⟨i, x, hx, hf⟩
    by_cases hi : i < n
    · rw [if_pos hi] at hf
      exact hf.elim
    · rw [if_neg hi] at hf
      exact ⟨i - n, x, by rwa [List.getElem?_drop, Nat.add_sub_cancel' (Nat.le_of_not_lt hi)], hf⟩
  · rintro ⟨i, x, hx, hf⟩
    rw [List.getElem?_drop] at hx
    exact ⟨n + i, x, hx, by rwa [if_neg (by omega)]⟩

/-- The pieces gone into, told from the treatment at any place. -/
theorem inside_eq {place : Place} (hmissing : ¬ x.head.missing = true)
    (hempty : ¬ (x.start = x.stop ∨ x.stop ≤ s.base)) (herror : ¬ x.head.error = true) :
    inside s x = (Treatment.of s.text place x).map (Treatment.pieces x.children) := by
  rw [inside, if_neg hmissing, if_neg hempty, if_neg herror]
  exact Treatment.map_pieces_of ..

theorem lower_plain_lossless {head : Head} {children : List Concrete}
    (hstart : Text.Boundary s.text head.start) (hstop : Text.Boundary s.text head.stop)
    (hchildren : ∀ x ∈ children, Text.Boundary s.text x.start)
    (h : ∀ x ∈ children, ∀ place role, Lossless s (lower s place role x) (RoleFaulting s role x))
    (place : Place) :
    Lossless s (lower s place .plain ⟨head, children⟩) (Faulting s ⟨head, children⟩) := by
  have hbefore := gap_lossless hstart
  have hafter := gap_lossless hstop
  have hleaf : ∀ kind, Lossless s (leaf s kind ⟨head, children⟩) False := fun kind =>
    leaf_lossless (x := ⟨head, children⟩) hstart hstop kind
  have hall := lowerAll_plain_lossless h head
  rw [lower]
  by_cases hmissing : head.missing = true
  · rw [if_pos hmissing]
    have hin : inside s ⟨head, children⟩ = .ok [] := by rw [inside, if_pos hmissing]
    exact (Lossless.nothing.report _).congr (by simp [faulting_iff_of_ok hin])
  rw [if_neg hmissing]
  by_cases hempty : head.start = head.stop ∨ head.stop ≤ s.base
  · rw [if_pos hempty]
    have hin : inside s ⟨head, children⟩ = .ok [] := by
      rw [inside, if_neg hmissing, if_pos hempty]
    exact Lossless.nothing.congr (by simp [faulting_iff_of_ok hin])
  rw [if_neg hempty]
  by_cases herror : head.error = true
  · rw [if_pos herror]
    have hin : inside s ⟨head, children⟩ = .ok children := by
      rw [inside, if_neg hmissing, if_neg hempty, if_pos herror]
    exact ((hbefore.inside hall hafter .errorNode).report _).congr
      (by simp [faulting_iff_of_ok hin])
  rw [if_neg herror]
  have hin : inside s ⟨head, children⟩ =
      (Treatment.of s.text place ⟨head, children⟩).map (Treatment.pieces children) :=
    inside_eq hmissing hempty herror
  split
  next fault hof =>
    rw [hof] at hin
    exact ((hleaf .errorToken).note fault).congr (iff_of_true trivial (.scanned hin))
  next kind hof =>
    rw [hof] at hin
    exact (hleaf kind).congr (by simp [faulting_iff_of_ok hin, Treatment.pieces])
  next node token hof =>
    rw [hof] at hin
    exact (hbefore.wrapped (hleaf token) node).congr
      (by simp [faulting_iff_of_ok hin, Treatment.pieces])
  next kind hof =>
    rw [hof] at hin
    exact (hbefore.inside hall hafter kind).congr
      (by simp [faulting_iff_of_ok hin, Treatment.pieces])
  next hof =>
    rw [hof] at hin
    exact (hall.append hafter).congr (by simp [faulting_iff_of_ok hin, Treatment.pieces])
  next node keyword callee hof =>
    rw [hof] at hin
    have hcall := lowerAll_lossless h head
      (fun i => if i = callee then .keyword keyword else .plain) 0 none false
    refine (hbefore.inside hcall hafter node).congr ?_
    rw [exists_role_iff, exists_others_iff, faulting_iff_of_ok hin]
    simp [Treatment.pieces]
  next body hof =>
    rw [hof] at hin
    have hinner := lowerAll_lossless h head
      (fun i => if i = body then .leading else .plain) 0 none false
    have hothers := lowerAll_lossless h head
      (fun i => if i = body then .trailing else .skip) 0 none false
    refine (hbefore.followed hinner hothers .elseIfClause).congr ?_
    rw [elseIf_iff, faulting_iff_of_ok hin, false_or, Treatment.pieces]
  next hof =>
    rw [hof] at hin
    exact (hbefore.inside (lowerTargets_lossless hchildren h head) hafter .arrayExpr).congr
      (by simp [faulting_iff_of_ok hin, Treatment.pieces])

theorem lower_lossless (hx : x.Fits s.text) (place : Place) (role : Role) :
    Lossless s (lower s place role x) (RoleFaulting s role x) := by
  induction x using Concrete.induction generalizing place role with
  | mk head children ih =>
    obtain ⟨hstart, hstop, -, hchildren⟩ := hx
    have h : ∀ x ∈ children, ∀ place role, Lossless s (lower s place role x)
        (RoleFaulting s role x) := fun x hx => ih x hx (hchildren x hx)
    cases role with
    | plain => exact lower_plain_lossless hstart hstop (fun x hx => (hchildren x hx).start) h place
    | skip =>
      rw [lower]
      exact .nothing
    | keyword kind =>
      rw [lower]
      exact leaf_lossless (x := ⟨head, children⟩) hstart hstop kind
    | leading =>
      rw [lower]
      exact (lowerAll_lossless h head _ 0 none false).congr exists_take_iff
    | trailing =>
      rw [lower]
      exact (lowerAll_lossless h head _ 0 none false).congr exists_drop_iff

/-- The same for a list of pieces. -/
theorem lowerAll_fits_lossless (hxs : ∀ x ∈ xs, x.Fits s.text) (parent : Head) :
    Lossless s (lowerAll s parent (fun _ => .plain) 0 none false xs) (∃ x ∈ xs, Faulting s x) :=
  lowerAll_plain_lossless (fun x hx => lower_lossless (hxs x hx)) parent

end Lower

end PhpLint
