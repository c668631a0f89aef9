import PhpLint.Proofs.Concrete.Quiet

/-! What a lowered tree is made of. Tokens have token kinds and nodes have node kinds, whatever the
concrete tree looks like. A literal, a name, a type or a shell command holds one token: when the
cursor comes to such a piece, nothing of it has been used up, for the pieces stand one behind the
other. Only the alternatives of an `if` that continues an `else` are gone back to; they are good as
long as nothing stands behind that `if`. -/

namespace PhpLint

namespace Concrete

variable {text : List Char} {x : Concrete}

/-- An `if` behind an `else` is the last piece there. -/
inductive Chained : Concrete → Prop
  | mk {x : Concrete} :
    (x.kind = "else_clause" → ∀ y ∈ x.children.dropLast, y.kind ≠ "if_statement") →
    (∀ y ∈ x.children, Chained y) → Chained x

@[simp] theorem chained_mk {head : Head} {children : List Concrete} : Chained ⟨head, children⟩ ↔
    (head.kind = "else_clause" → ∀ y ∈ children.dropLast, y.kind ≠ "if_statement") ∧
      ∀ y ∈ children, Chained y := by
  constructor
  · rintro ⟨hlast, hchildren⟩
    exact ⟨hlast, hchildren⟩
  · rintro ⟨hlast, hchildren⟩
    exact .mk hlast hchildren

theorem Chained.children (h : x.Chained) : ∀ y ∈ x.children, y.Chained := by
  obtain ⟨-, hchildren⟩ := h
  exact hchildren

theorem Chained.last (h : x.Chained) (hkind : x.kind = "else_clause") :
    ∀ y ∈ x.children.dropLast, y.kind ≠ "if_statement" := by
  obtain ⟨hlast, -⟩ := h
  exact hlast hkind

/-- Pieces of a text, nested and one behind the other, in which a continued `else` ends with its
`if`. -/
structure Orderly (text : List Char) (x : Concrete) : Prop where
  fits : x.Fits text
  nested : x.Nested
  chained : x.Chained

theorem Orderly.children (h : x.Orderly text) : ∀ y ∈ x.children, y.Orderly text := fun y hy =>
  ⟨h.fits.children y hy, h.nested.children y hy, h.chained.children y hy⟩

end Concrete

namespace Lower

variable {s : Source} {c d : Cursor} {gs hs : List Green} {x y : Concrete} {xs : List Concrete}
  {role : Role} {roles : Nat → Role} {parent : Head} {prev : Option String} {named : Bool}
  {kind : Kind} {i b pos : Nat} {whole : Prop}

/-! ### How far the cursor gets -/

theorem pos_leaf (s : Source) (kind : Kind) (x : Concrete) (c : Cursor) :
    (leaf s kind x c).2.pos = max (max c.pos x.start) x.stop := by
  rw [leaf_eq]
  generalize hd : (if x.head.faulty = true then { c with errors := c.errors ++ errorsBelow s x }
    else c) = d
  have hpos : d.pos = c.pos := by
    rw [← hd]
    split <;> rfl
  have hgap := pos_gap s x.start d
  rw [hpos] at hgap
  dsimp only
  rw [hgap]
  split
  next hle => rw [hgap, Nat.max_eq_left hle]
  next hle => exact (Nat.max_eq_right (Nat.le_of_not_le hle)).symm

/-- The cursor goes no further than the pieces do. -/
def Stays (s : Source) (x : Concrete) : Prop :=
  ∀ place role c b, c.pos ≤ b → (∀ y ∈ rolePieces role x, y.stop ≤ b) →
    (lower s place role x c).2.pos ≤ b

theorem pos_lowerAll_le (h : ∀ x ∈ xs, Stays s x) (hc : c.pos ≤ b)
    (hstop : ∀ (j : Nat) (x : Concrete), xs[j]? = some x →
      ∀ y ∈ rolePieces (roles (i + j)) x, y.stop ≤ b) :
    (lowerAll s parent roles i prev named xs c).2.pos ≤ b := by
  induction xs generalizing i prev named c with
  | nil =>
    rw [lowerAll]
    exact hc
  | cons x xs ih =>
    rw [List.forall_mem_cons] at h
    have hx := h.1 (placeIn parent prev named x xs) (roles i) c b hc (hstop 0 x rfl)
    rw [lowerAll]
    refine ih h.2 hx fun j y hy => ?_
    rw [show i + 1 + j = i + (j + 1) by omega]
    exact hstop (j + 1) y hy

theorem pos_lowerTargets_le {run : Option (List Green)} (h : ∀ x ∈ xs, Stays s x) (hc : c.pos ≤ b)
    (hle : ∀ x ∈ xs, x.start ≤ b ∧ x.stop ≤ b) :
    (lowerTargets s parent run prev named xs c).2.pos ≤ b := by
  induction xs generalizing run prev named c with
  | nil =>
    rw [lowerTargets]
    exact hc
  | cons x xs ih =>
    rw [List.forall_mem_cons] at h hle
    have hx : ∀ {c : Cursor}, c.pos ≤ b →
        (lower s (placeIn parent prev named x xs) .plain x c).2.pos ≤ b := fun hc =>
      h.1 _ .plain _ b hc (List.forall_mem_singleton.2 hle.1.2)
    rw [lowerTargets.eq_def]
    dsimp only
    split
    · exact ih h.2 (hx hc) hle.2
    cases run with
    | some gs => exact ih h.2 (hx hc) hle.2
    | none =>
      by_cases hcomment : x.kind = "comment"
      · simp only [if_pos hcomment]
        exact ih h.2 (hx hc) hle.2
      · simp only [if_neg hcomment]
        have hgap : (gap s x.start c).2.pos ≤ b := by
          rw [pos_gap]
          exact Nat.max_le.2 ⟨hc, hle.1.1⟩
        exact ih h.2 (hx hgap) hle.2

/-- A node of its own for a piece. -/
theorem pos_inside_le {m : Lower (List Green)} (hm : ∀ c : Cursor, c.pos ≤ b → (m c).2.pos ≤ b)
    (hstart : x.start ≤ b) (hstop : x.stop ≤ b) (hc : c.pos ≤ b) :
    let made : Lower (List Green) := do
      let before ← gap s x.start
      let inner ← m
      let after ← gap s x.stop
      return before ++ [.node kind (inner ++ after)]
    (made c).2.pos ≤ b := by
  change (gap s x.stop (m (gap s x.start c).2).2).2.pos ≤ b
  rw [pos_gap]
  refine Nat.max_le.2 ⟨hm _ ?_, hstop⟩
  rw [pos_gap]
  exact Nat.max_le.2 ⟨hc, hstart⟩

theorem pos_lower_plain_le (hx : x.Fits s.text) (hnested : x.Nested)
    (h : ∀ y ∈ x.children, Stays s y) (place : Place) (hc : c.pos ≤ b) (hstop : x.stop ≤ b) :
    (lower s place .plain x c).2.pos ≤ b := by
  have hstart : x.start ≤ b := hx.start_le_stop.trans hstop
  have hchild : ∀ y ∈ x.children, y.start ≤ b ∧ y.stop ≤ b := fun y hy =>
    have hle := (hnested.within hy).2.trans hstop
    ⟨((hx.children y hy).start_le_stop).trans hle, hle⟩
  have hall : ∀ (roles : Nat → Role) (c : Cursor), c.pos ≤ b →
      (lowerAll s x.head roles 0 none false x.children c).2.pos ≤ b := fun roles c hc =>
    pos_lowerAll_le h hc fun j y hy z hz =>
      have hmem := List.mem_of_getElem? hy
      (within_of_mem_rolePieces (hnested.children y hmem) hz).2.trans (hchild y hmem).2
  have hgap : ∀ {c : Cursor}, c.pos ≤ b → (gap s x.start c).2.pos ≤ b := fun hc => by
    rw [pos_gap]
    exact Nat.max_le.2 ⟨hc, hstart⟩
  have hleaf : ∀ (kind : Kind) {c : Cursor}, c.pos ≤ b → (leaf s kind x c).2.pos ≤ b :=
    fun kind c hc => by
      rw [pos_leaf]
      exact Nat.max_le.2 ⟨Nat.max_le.2 ⟨hc, hstart⟩, hstop⟩
  obtain ⟨head, children⟩ := x
  rw [lower]
  by_cases hmissing : head.missing = true
  · rw [if_pos hmissing]
    exact hc
  by_cases hempty : head.start = head.stop ∨ head.stop ≤ s.base
  · rw [if_neg hmissing, if_pos hempty]
    exact hc
  rw [if_neg hmissing, if_neg hempty]
  by_cases herror : head.error = true
  · rw [if_pos herror]
    exact pos_inside_le (x := ⟨head, children⟩) (hall _) hstart hstop hc
  rw [if_neg herror]
  cases Treatment.of s.text place ⟨head, children⟩ with
  | error fault => exact hleaf .errorToken hc
  | ok treatment =>
  cases treatment with
  | leaf kind => exact hleaf kind hc
  | wrapped node token => exact hleaf token (hgap hc)
  | composite kind => exact pos_inside_le (x := ⟨head, children⟩) (hall _) hstart hstop hc
  | transparent =>
    change (gap s head.stop _).2.pos ≤ b
    rw [pos_gap]
    exact Nat.max_le.2 ⟨hall _ _ hc, hstop⟩
  | keywordCall node keyword callee =>
    exact pos_inside_le (x := ⟨head, children⟩) (hall _) hstart hstop hc
  | elseIf body => exact hall _ _ (hall _ _ (hgap hc))
  | targets =>
    exact pos_inside_le (x := ⟨head, children⟩) (fun c hc => pos_lowerTargets_le h hc hchild) hstart
      hstop hc

theorem stays_of_nested (hx : x.Fits s.text) (hnested : x.Nested) : Stays s x := by
  induction x using Concrete.induction with
  | mk head children ih =>
    have h : ∀ y ∈ children, Stays s y := fun y hy =>
      ih y hy (hx.children y hy) (hnested.children y hy)
    intro place role c b hc hstop
    cases role with
    | plain => exact pos_lower_plain_le hx hnested h place hc (hstop _ List.mem_cons_self)
    | skip =>
      rw [lower]
      exact hc
    | keyword kind =>
      have hle : head.stop ≤ b := hstop _ List.mem_cons_self
      rw [lower, pos_leaf]
      exact Nat.max_le.2 ⟨Nat.max_le.2 ⟨hc, hx.start_le_stop.trans hle⟩, hle⟩
    | leading =>
      rw [lower]
      exact pos_lowerAll_le h hc fun j y hy z hz => hstop z (mem_leading hy hz)
    | trailing =>
      rw [lower]
      exact pos_lowerAll_le h hc fun j y hy z hz => hstop z (mem_trailing hy hz)

/-! ### What is made -/

/-- A node that holds one token holds that and nothing else; if not all of them are known to be
`whole`, it may be empty. -/
def Single (whole : Prop) (n : Kind × List Green) : Prop :=
  n.1.isSolitary = true →
    (∃ kind text, n.2 = [.token kind text] ∧ (n.1 = .literal → kind.isTrivia = false)) ∨
      ¬ whole ∧ n.2 = []

/-- Tokens of token kinds in nodes of node kinds, of which some hold one token. -/
structure Shaped (whole : Prop) (gs : List Green) : Prop where
  tokens : ∀ w ∈ Green.leavesAll gs, w.1.isToken = true
  nodes : ∀ n ∈ Green.nodesAll gs, n.1.isToken = false ∧ Single whole n

theorem single_of_not_isSolitary (hkind : kind.isSolitary = false) : Single whole (kind, gs) :=
  fun hsolitary => by
    rw [hkind] at hsolitary
    cases hsolitary

namespace Shaped

theorem nil : Shaped whole [] := ⟨nofun, nofun⟩

theorem append (h : Shaped whole gs) (h' : Shaped whole hs) : Shaped whole (gs ++ hs) where
  tokens := fun w hw => by
    rw [Green.leavesAll_append, List.mem_append] at hw
    exact hw.elim (h.tokens w) (h'.tokens w)
  nodes := fun n hn => by
    rw [Green.nodesAll_append, List.mem_append] at hn
    exact hn.elim (h.nodes n) (h'.nodes n)

theorem token (hkind : kind.isToken = true) (text : String) : Shaped whole [.token kind text] where
  tokens := fun w hw => by
    obtain rfl := List.mem_singleton.1 hw
    exact hkind
  nodes := nofun

theorem node (h : Shaped whole gs) (hkind : kind.isToken = false)
    (hsingle : Single whole (kind, gs)) : Shaped whole [.node kind gs] where
  tokens := fun w hw => by
    rw [Green.leavesAll, Green.leaves, Green.leavesAll, List.append_nil] at hw
    exact h.tokens w hw
  nodes := fun n hn => by
    rw [Green.nodesAll, Green.nodes, Green.nodesAll, List.append_nil, List.mem_cons] at hn
    rcases hn with rfl | hn
    · exact ⟨hkind, hsingle⟩
    · exact h.nodes n hn

theorem targetElement {run : Option (List Green)} (h : Shaped whole (run.getD [])) :
    Shaped whole (targetElement run) := by
  cases run with
  | none => exact h
  | some gs => exact h.node rfl (single_of_not_isSolitary rfl)

end Shaped

theorem shaped_gap (s : Source) (stop : Nat) (c : Cursor) : Shaped whole (gap s stop c).1 := by
  rw [gap_eq]
  split
  · exact .nil
  · refine ⟨fun w hw => ?_, fun n hn => ?_⟩
    · rw [leavesAll_map_gapToken] at hw
      obtain ⟨run, -, rfl⟩ := List.mem_map.1 hw
      dsimp only
      split <;> rfl
    · rw [nodesAll_map_gapToken] at hn
      cases hn

theorem shaped_leaf (s : Source) (hkind : kind.isToken = true) (x : Concrete) (c : Cursor) :
    Shaped whole (leaf s kind x c).1 := by
  rw [leaf_eq]
  generalize (if x.head.faulty = true then { c with errors := c.errors ++ errorsBelow s x }
    else c) = d
  dsimp only
  split
  · exact shaped_gap _ _ _
  · exact (shaped_gap _ _ _).append (.token hkind _)

/-- A piece that the cursor stands at leaves a token. -/
theorem exists_leaf_eq (s : Source) (kind : Kind) (hstart : x.start ≤ c.pos)
    (hstop : c.pos < x.stop) : ∃ text, (leaf s kind x c).1 = [.token kind text] := by
  rw [leaf_eq]
  generalize hd : (if x.head.faulty = true then { c with errors := c.errors ++ errorsBelow s x }
    else c) = d
  have hpos : d.pos = c.pos := by
    rw [← hd]
    split <;> rfl
  have hgap : gap s x.start d = ([], d) := by
    rw [gap_eq, if_pos (hpos ▸ hstart)]
  dsimp only
  rw [hgap, if_neg (by rw [hpos]; exact Nat.not_le_of_lt hstop)]
  exact ⟨_, rfl⟩

/-- A node of its own around what the children of a piece leave. -/
theorem shaped_inside {m : Lower (List Green)} (hkind : kind.isToken = false)
    (hsolitary : kind.isSolitary = false) (hm : Shaped whole (m (gap s x.start c).2).1) :
    let made : Lower (List Green) := do
      let before ← gap s x.start
      let inner ← m
      let after ← gap s x.stop
      return before ++ [.node kind (inner ++ after)]
    Shaped whole (made c).1 :=
  (shaped_gap _ _ _).append
    ((hm.append (shaped_gap _ _ _)).node hkind (single_of_not_isSolitary hsolitary))

/-- A piece as one token in a node of its own. There is such a token unless the cursor has passed
the piece. -/
theorem shaped_wrapped {node token : Kind}
    (hkinds : (Treatment.wrapped node token).Kinded)
    (hpos : whole → max c.pos x.start < x.stop) :
    let made : Lower (List Green) := do
      let before ← gap s x.start
      let inner ← leaf s token x
      return before ++ [.node node inner]
    Shaped whole (made c).1 := by
  obtain ⟨hnode, htoken, hliteral⟩ := hkinds
  have hstart : x.start ≤ (gap s x.start c).2.pos := le_pos_gap s x.start c
  have hleaf : (leaf s token x (gap s x.start c).2).1 = [] ∨
      ∃ text, (leaf s token x (gap s x.start c).2).1 = [.token token text] :=
    leaf_of_start_le hstart
  have hsingle : Single whole (node, (leaf s token x (gap s x.start c).2).1) := fun _ => by
    by_cases hwhole : whole
    · obtain ⟨text, htext⟩ :=
        exists_leaf_eq s token hstart (pos_gap s x.start c ▸ hpos hwhole)
      exact .inl ⟨token, text, htext, hliteral⟩
    · rcases hleaf with hnil | ⟨text, htext⟩
      · exact .inr ⟨hwhole, hnil⟩
      · exact .inl ⟨token, text, htext, hliteral⟩
  exact (shaped_gap _ _ _).append ((shaped_leaf s htoken x _).node hnode hsingle)

/-! ### Pieces that the cursor has not come to -/

/-- The cursor has not passed the beginning of what a piece in a role stands for, unless that lies
before the base. -/
def Unpassed (s : Source) (pos : Nat) (role : Role) (x : Concrete) : Prop :=
  ∀ y ∈ rolePieces role x, pos ≤ max s.base y.start

theorem unpassed_of_le (hnested : x.Nested) (hle : pos ≤ max s.base x.start) (role : Role) :
    Unpassed s pos role x := fun y hy => by
  have hin := within_of_mem_rolePieces hnested hy
  omega

/-- Lowering a piece leaves what stands behind it to come. -/
theorem unpassed_lower {place : Place} {other : Role} (hx : x.Fits s.text) (hnested : x.Nested)
    (hy : y.Nested) (hxy : x.stop ≤ y.start) (hun : Unpassed s c.pos other y) :
    Unpassed s (lower s place role x c).2.pos other y := fun z hz => by
  have hzy := within_of_mem_rolePieces hy hz
  refine stays_of_nested hx hnested place role c _ (hun z hz) fun v hv => ?_
  have hvx := within_of_mem_rolePieces hnested hv
  omega

/-- The second half of an `if` that stands last behind an `else` is still to come once the first
half is done. -/
theorem unpassed_trailing (hx : x.Fits s.text) (hnested : x.Nested) {body : Nat}
    (hlast : x.children.length ≤ body + 1) (hpos : c.pos ≤ max s.base x.start) (j : Nat)
    (y : Concrete) (hy : x.children[j]? = some y) :
    Unpassed s (lowerAll s x.head (fun i => if i = body then .leading else .plain) 0 none false
      x.children c).2.pos (if 0 + j = body then .trailing else .skip) y := by
  intro z hz
  rw [Nat.zero_add] at hz
  split at hz
  next hj =>
    have hmem := List.mem_of_getElem? hy
    have hynested := hnested.children y hmem
    have hyx := hnested.within hmem
    have hzy := within_of_mem_rolePieces hynested hz
    refine pos_lowerAll_le (fun w hw => stays_of_nested (hx.children w hw)
      (hnested.children w hw)) (by omega) fun i w hw v hv => ?_
    have hvw := within_of_mem_rolePieces (hnested.children w (List.mem_of_getElem? hw)) hv
    rw [Nat.zero_add] at hv
    split at hv
    next hi =>
      obtain rfl : w = y := Option.some.inj (hw.symm.trans (hi ▸ hj ▸ hy))
      have hpairs := hynested.pairwise
      rw [← List.take_append_drop (leadingCount w.children) w.children,
        List.pairwise_append] at hpairs
      have hvz := hpairs.2.2 v hv z hz
      omega
    next hi =>
      have hlt := (List.getElem?_eq_some_iff.1 hw).1
      have hwy := hnested.stop_le_start hw hy (by omega)
      omega
  next => cases hz

/-- Lowering a piece leaves nodes that are well shaped, and `whole` if the piece was still to
come. -/
def Shaping (s : Source) (whole : Prop) (x : Concrete) : Prop :=
  ∀ place role c, (∀ kind, role = .keyword kind → kind.isToken = true) →
    (whole → Unpassed s c.pos role x) → Shaped whole (lower s place role x c).1

/-- Pieces that are lowered one after the other. -/
structure Row (s : Source) (whole : Prop) (xs : List Concrete) : Prop where
  shaping : ∀ x ∈ xs, Shaping s whole x
  orderly : whole → ∀ x ∈ xs, x.Orderly s.text
  apart : whole → xs.Pairwise fun x y => x.stop ≤ y.start

namespace Row

theorem tail (h : Row s whole (x :: xs)) : Row s whole xs where
  shaping := fun y hy => h.shaping y (List.mem_cons_of_mem x hy)
  orderly := fun hw y hy => h.orderly hw y (List.mem_cons_of_mem x hy)
  apart := fun hw => (List.pairwise_cons.1 (h.apart hw)).2

/-- Lowering the first piece leaves the others to come. -/
theorem unpassed_tail {place : Place} {other : Role} (h : Row s whole (x :: xs)) (hw : whole)
    (hy : y ∈ xs) (hun : Unpassed s c.pos other y) :
    Unpassed s (lower s place role x c).2.pos other y :=
  have hx := h.orderly hw x List.mem_cons_self
  unpassed_lower hx.fits hx.nested (h.tail.orderly hw y hy).nested
    ((List.pairwise_cons.1 (h.apart hw)).1 y hy) hun

theorem shaped_lowerAll (h : Row s whole xs) (parent : Head) (roles : Nat → Role) (i : Nat)
    (prev : Option String) (named : Bool)
    (hkeyword : ∀ (j : Nat) (kind : Kind), roles j = .keyword kind → kind.isToken = true)
    (hun : whole → ∀ (j : Nat) (x : Concrete), xs[j]? = some x →
      Unpassed s c.pos (roles (i + j)) x) :
    Shaped whole (lowerAll s parent roles i prev named xs c).1 := by
  induction xs generalizing i prev named c with
  | nil =>
    rw [lowerAll]
    exact .nil
  | cons x xs ih =>
    have hfirst := h.shaping x List.mem_cons_self (placeIn parent prev named x xs) (roles i) c
      (hkeyword i) fun hw => hun hw 0 x rfl
    rw [lowerAll]
    refine hfirst.append (ih h.tail _ _ _ fun hw j y hy => ?_)
    rw [show i + 1 + j = i + (j + 1) by omega]
    exact h.unpassed_tail hw (List.mem_of_getElem? hy) (hun hw (j + 1) y hy)

theorem shaped_lowerTargets {run : Option (List Green)} (h : Row s whole xs)
    (hrun : Shaped whole (run.getD [])) (hun : whole → ∀ x ∈ xs, c.pos ≤ max s.base x.start) :
    Shaped whole (lowerTargets s parent run prev named xs c).1 := by
  induction xs generalizing run prev named c with
  | nil =>
    rw [lowerTargets]
    exact hrun.targetElement
  | cons x xs ih =>
    -- the first piece is lowered as it stands, and the others are still to come
    have hfirst : ∀ {c : Cursor} (place : Place),
        (whole → ∀ y ∈ x :: xs, c.pos ≤ max s.base y.start) →
        Shaped whole (lower s place .plain x c).1 ∧
          (whole → ∀ y ∈ xs, (lower s place .plain x c).2.pos ≤ max s.base y.start) :=
      fun place hun => by
        refine ⟨h.shaping x List.mem_cons_self place .plain _ (fun _ hrole => by cases hrole)
          fun hw => List.forall_mem_singleton.2 (hun hw x List.mem_cons_self), fun hw y hy => ?_⟩
        have hplain : Unpassed s _ .plain y :=
          List.forall_mem_singleton.2 (hun hw y (List.mem_cons_of_mem x hy))
        exact h.unpassed_tail hw hy hplain y List.mem_cons_self
    have hx := hfirst (placeIn parent prev named x xs) hun
    rw [lowerTargets.eq_def]
    dsimp only
    by_cases hdelimiter : isDelimiter x = true
    · rw [if_pos hdelimiter]
      exact (hrun.targetElement.append hx.1).append (ih h.tail .nil hx.2)
    rw [if_neg hdelimiter]
    cases run with
    | some gs => exact ih h.tail (hrun.append hx.1) hx.2
    | none =>
      by_cases hcomment : x.kind = "comment"
      · simp only [if_pos hcomment]
        exact hx.1.append (ih h.tail .nil hx.2)
      · simp only [if_neg hcomment]
        have hgap : whole → ∀ y ∈ x :: xs, (gap s x.start c).2.pos ≤ max s.base y.start :=
          fun hw y hy => by
            have hpos := hun hw y hy
            rw [pos_gap]
            rcases List.mem_cons.1 hy with rfl | hy
            · omega
            · have hle := (h.orderly hw x List.mem_cons_self).fits.start_le_stop
              have hxy := (List.pairwise_cons.1 (h.apart hw)).1 y hy
              omega
        have hx := hfirst (placeIn parent prev named x xs) hgap
        exact (shaped_gap _ _ _).append (ih h.tail hx.1 hx.2)

end Row

/-- The children of a piece, none of which the cursor has passed. -/
structure Inside (s : Source) (whole : Prop) (x : Concrete) : Prop where
  row : Row s whole x.children
  orderly : whole → x.Orderly s.text

namespace Inside

theorem unpassed (h : Inside s whole x) (hun : whole → c.pos ≤ max s.base x.start)
    (roles : Nat → Role) : whole → ∀ (j : Nat) (y : Concrete), x.children[j]? = some y →
      Unpassed s c.pos (roles (0 + j)) y := fun hw j y hy => by
  have hmem := List.mem_of_getElem? hy
  have hin := (h.orderly hw).nested.within hmem
  have hpos := hun hw
  exact unpassed_of_le ((h.orderly hw).nested.children y hmem) (by omega) _

theorem shaped_lowerAll (h : Inside s whole x) (roles : Nat → Role)
    (hkeyword : ∀ (j : Nat) (kind : Kind), roles j = .keyword kind → kind.isToken = true)
    (hun : whole → c.pos ≤ max s.base x.start) :
    Shaped whole (lowerAll s x.head roles 0 none false x.children c).1 :=
  h.row.shaped_lowerAll x.head roles 0 none false hkeyword (h.unpassed hun roles)

theorem shaped_elseIf (h : Inside s whole x) {body : Nat} (hkind : x.kind = "else_clause")
    (hof : Treatment.ofElse x = .elseIf body) (hun : whole → c.pos ≤ max s.base x.start) :
    let made : Lower (List Green) := do
      let before ← gap s x.start
      let inner ← lowerAll s x.head (fun i => if i = body then .leading else .plain) 0 none false
        x.children
      let others ← lowerAll s x.head (fun i => if i = body then .trailing else .skip) 0 none false
        x.children
      return before ++ .node .elseIfClause inner :: others
    Shaped whole (made c).1 := by
  have hgap : whole → (gap s x.start c).2.pos ≤ max s.base x.start := fun hw => by
    have hpos := hun hw
    rw [pos_gap]
    omega
  have hinner := h.shaped_lowerAll (fun i => if i = body then .leading else .plain)
    (fun j kind hrole => by split at hrole <;> cases hrole) hgap
  have hlast : whole → x.children.length ≤ body + 1 := fun hw => by
    obtain ⟨front, y, hchildren, hbody⟩ :=
      exists_eq_append_of_ofElse hof ((h.orderly hw).chained.last hkind)
    rw [hchildren, List.length_append, List.length_singleton, hbody, Nat.zero_add]
  have hothers := h.row.shaped_lowerAll x.head (fun i => if i = body then .trailing else .skip) 0
    none false
    (fun j kind hrole => by split at hrole <;> cases hrole)
    fun hw => unpassed_trailing (h.orderly hw).fits (h.orderly hw).nested (hlast hw) (hgap hw)
  exact (shaped_gap _ _ _).append
    ((hinner.node rfl (single_of_not_isSolitary rfl)).append hothers)

theorem shaped_lower_plain (h : Inside s whole x) (place : Place)
    (hun : whole → c.pos ≤ max s.base x.start) : Shaped whole (lower s place .plain x c).1 := by
  have hgap : ∀ {c : Cursor}, (whole → c.pos ≤ max s.base x.start) → whole →
      (gap s x.start c).2.pos ≤ max s.base x.start := fun hun hw => by
    have hpos := hun hw
    rw [pos_gap]
    omega
  have hall : ∀ {c : Cursor}, (whole → c.pos ≤ max s.base x.start) →
      Shaped whole (lowerAll s x.head (fun _ => .plain) 0 none false x.children c).1 := fun hun =>
    h.shaped_lowerAll _ (fun _ _ hrole => by cases hrole) hun
  obtain ⟨head, children⟩ := x
  rw [lower]
  by_cases hmissing : head.missing = true
  · rw [if_pos hmissing]
    exact .nil
  by_cases hempty : head.start = head.stop ∨ head.stop ≤ s.base
  · rw [if_neg hmissing, if_pos hempty]
    exact .nil
  rw [if_neg hmissing, if_neg hempty]
  by_cases herror : head.error = true
  · rw [if_pos herror]
    exact shaped_inside (x := ⟨head, children⟩) rfl rfl (hall (hgap hun))
  rw [if_neg herror]
  cases hof : Treatment.of s.text place ⟨head, children⟩ with
  | error fault => exact shaped_leaf s rfl ⟨head, children⟩ _
  | ok treatment =>
  have hkinds := Treatment.of_kinded hof
  cases treatment with
  | leaf kind => exact shaped_leaf s hkinds ⟨head, children⟩ c
  | wrapped node token =>
    refine shaped_wrapped (x := ⟨head, children⟩) hkinds fun hw => ?_
    have hle := (h.orderly hw).fits.start_le_stop
    have hpos := hun hw
    dsimp only [Concrete.start, Concrete.stop] at *
    omega
  | composite kind =>
    exact shaped_inside (x := ⟨head, children⟩) hkinds.1 hkinds.2 (hall (hgap hun))
  | transparent => exact (hall hun).append (shaped_gap _ _ _)
  | keywordCall node keyword callee =>
    refine shaped_inside (x := ⟨head, children⟩) hkinds.1.1 hkinds.1.2
      (h.shaped_lowerAll _ (fun j kind hrole => ?_) (hgap hun))
    split at hrole
    · exact Role.keyword.inj hrole ▸ hkinds.2
    · cases hrole
  | elseIf body =>
    obtain ⟨hkind, hof⟩ := Treatment.of_eq_elseIf hof
    exact shaped_elseIf h hkind hof hun
  | targets =>
    refine shaped_inside (x := ⟨head, children⟩) rfl rfl
      (h.row.shaped_lowerTargets .nil fun hw y hy => ?_)
    obtain ⟨j, hj⟩ := List.getElem?_of_mem hy
    exact h.unpassed (hgap hun) (fun _ => .plain) hw j y hj y List.mem_cons_self

end Inside

theorem inside_of_shaping (hx : whole → x.Orderly s.text)
    (h : ∀ y ∈ x.children, Shaping s whole y) : Inside s whole x where
  row := ⟨h, fun hw => (hx hw).children, fun hw => (hx hw).nested.pairwise⟩
  orderly := hx

/-- Every piece is lowered to tokens in nodes, each of a kind of its sort; the nodes that should
hold one token do so for pieces in order. -/
theorem shaping_of_orderly (hx : whole → x.Orderly s.text) : Shaping s whole x := by
  induction x using Concrete.induction with
  | mk head children ih =>
    have h : Inside s whole ⟨head, children⟩ := inside_of_shaping hx fun y hy =>
      ih y hy fun hw => (hx hw).children y hy
    intro place role c hkeyword hun
    cases role with
    | plain => exact h.shaped_lower_plain place fun hw => hun hw _ List.mem_cons_self
    | skip =>
      rw [lower]
      exact .nil
    | keyword kind =>
      rw [lower]
      exact shaped_leaf s (hkeyword kind rfl) ⟨head, children⟩ c
    | leading =>
      rw [lower]
      exact h.row.shaped_lowerAll _ _ _ _ _ (fun j kind hrole => by split at hrole <;> cases hrole)
        fun hw j y hy z hz => hun hw z (mem_leading hy hz)
    | trailing =>
      rw [lower]
      exact h.row.shaped_lowerAll _ _ _ _ _ (fun j kind hrole => by split at hrole <;> cases hrole)
        fun hw j y hy z hz => hun hw z (mem_trailing hy hz)

theorem inside_of_orderly (hx : whole → x.Orderly s.text) : Inside s whole x :=
  inside_of_shaping hx fun y hy => shaping_of_orderly fun hw => (hx hw).children y hy

end Lower

end PhpLint
