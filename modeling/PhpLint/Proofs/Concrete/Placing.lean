import PhpLint.Proofs.Concrete.Outline
import PhpLint.Proofs.Concrete.Shapes

/-! Where the nodes of a lowered tree stand. They are those of the outline, one for one. As long as
the pieces stand one behind the other, the cursor never comes to a piece after its beginning, so
that a node takes up the text of the piece it is made of and no other; what lies before the base
apart, and the alternatives of an `if` that continues an `else` with more behind it. -/

namespace PhpLint

namespace Concrete

/-- Pieces of a text, nested and one behind the other. -/
structure Laid (text : List Char) (x : Concrete) : Prop where
  fits : x.Fits text
  nested : x.Nested

theorem Laid.children {text : List Char} {x : Concrete} (h : x.Laid text) :
    ∀ y ∈ x.children, y.Laid text := fun y hy => ⟨h.fits.children y hy, h.nested.children y hy⟩

end Concrete

namespace Lower

variable {s : Source} {root x y : Concrete} {whole : Prop} {pos pos' : Nat} {gs hs : List Green}
  {os ps : List Outline} {c d : Cursor} {xs : List Concrete} {role : Role} {roles : Nat → Role}
  {site : List Nat} {late : Bool} {parent : Head} {prev : Option String} {named : Bool}
  {kind : Kind} {i : Nat} {p : Prop}

/-- The nodes `gs` at an offset are the text of a piece, from its beginning or from the base. -/
structure Fills (s : Source) (x : Concrete) (pos : Nat) (gs : List Green) : Prop where
  pos_eq : pos = max s.base x.start
  stop_eq : pos + Green.span (Green.leavesAll gs) = x.stop
  text_eq : (Green.tokensAll gs).flatMap String.toList = Text.slice s.text pos x.stop

/-- The nodes among `gs` are those of the outline, all the way down, if `gs` begins at the offset
`pos`. If the pieces are `whole`, each node that is not late has the text of its piece. -/
inductive Placed (s : Source) (root : Concrete) (whole : Prop) :
    Nat → List Green → List Outline → Prop
  | nil {pos : Nat} : Placed s root whole pos [] []
  | token {pos : Nat} {kind : Kind} {text : String} {gs : List Green} {os : List Outline} :
    Placed s root whole (pos + text.utf8ByteSize) gs os →
    Placed s root whole pos (.token kind text :: gs) os
  | node {pos : Nat} {o : Outline} {inner gs : List Green} {os : List Outline} :
    Placed s root whole pos inner o.children →
    (whole → o.late = false → ∀ site x, o.site = some site → root.at? site = some x →
      Fills s x pos inner) →
    Placed s root whole (pos + Green.span (Green.leavesAll inner)) gs os →
    Placed s root whole pos (.node o.kind inner :: gs) (o :: os)

namespace Placed

theorem congr (h : Placed s root whole pos gs os) (hpos : whole → pos' = pos) :
    Placed s root whole pos' gs os := by
  induction h generalizing pos' with
  | nil => exact .nil
  | token h ih => exact .token (ih fun hw => by rw [hpos hw])
  | node h hfills hrest ih ihrest =>
    refine .node (ih hpos) (fun hw hlate site x hsite hx => ?_) (ihrest fun hw => by rw [hpos hw])
    rw [hpos hw]
    exact hfills hw hlate site x hsite hx

theorem append (h : Placed s root whole pos gs os) (h' : Placed s root whole pos' hs ps)
    (hpos : whole → pos' = pos + Green.span (Green.leavesAll gs)) :
    Placed s root whole pos (gs ++ hs) (os ++ ps) := by
  induction h with
  | nil => exact h'.congr fun hw => (hpos hw).symm
  | @token pos kind text gs os h ih =>
    refine .token (ih fun hw => ?_)
    rw [hpos hw, Green.leavesAll, Green.leaves, Green.span_append, Green.span_cons]
    simp only [Green.span, List.flatMap_nil, Text.byteLength]
    omega
  | node h hfills hrest ih ihrest =>
    refine .node h hfills (ihrest fun hw => ?_)
    rw [hpos hw, Green.leavesAll, Green.leaves, Green.span_append, Nat.add_assoc]

/-- Behind the nodes so far the cursor goes on. -/
theorem append_took (h : Placed s root whole c.pos gs os) (hc : whole → Aligned s c)
    (htook : whole → Took s c gs d p) (h' : Placed s root whole d.pos hs ps) :
    Placed s root whole c.pos (gs ++ hs) (os ++ ps) :=
  h.append h' fun hw => (htook hw).pos_eq (hc hw)

theorem of_tokens (h : ∀ g ∈ gs, ∃ kind text, g = .token kind text) (pos : Nat) :
    Placed s root whole pos gs [] := by
  induction gs generalizing pos with
  | nil => exact .nil
  | cons g gs ih =>
    rw [List.forall_mem_cons] at h
    obtain ⟨⟨kind, text, rfl⟩, h⟩ := h
    exact .token (ih h _)

end Placed

theorem exists_token_of_mem_gap {g : Green} {stop : Nat} (hg : g ∈ (gap s stop c).1) :
    ∃ kind text, g = .token kind text := by
  rw [gap_eq] at hg
  split at hg
  · cases hg
  · obtain ⟨run, -, rfl⟩ := List.mem_map.1 hg
    exact ⟨_, _, rfl⟩

theorem exists_token_of_mem_leaf {g : Green} (hg : g ∈ (leaf s kind x c).1) :
    ∃ kind text, g = .token kind text := by
  rw [leaf_eq] at hg
  generalize (if x.head.faulty = true then { c with errors := c.errors ++ errorsBelow s x }
    else c) = d at hg
  dsimp only at hg
  split at hg
  · exact exists_token_of_mem_gap hg
  · rcases List.mem_append.1 hg with hg | hg
    · exact exists_token_of_mem_gap hg
    · exact ⟨_, _, List.mem_singleton.1 hg⟩

theorem placed_gap (s : Source) (stop : Nat) (c : Cursor) (pos : Nat) :
    Placed s root whole pos (gap s stop c).1 [] := .of_tokens (fun _ => exists_token_of_mem_gap) pos

theorem placed_leaf (s : Source) (kind : Kind) (x : Concrete) (c : Cursor) (pos : Nat) :
    Placed s root whole pos (leaf s kind x c).1 [] :=
  .of_tokens (fun _ => exists_token_of_mem_leaf) pos

theorem Placed.gap (h : Placed s root whole pos gs os) (stop : Nat) (d : Cursor) :
    Placed s root whole pos (gs ++ (Lower.gap s stop d).1) os := by
  have hboth := h.append (placed_gap s stop d _) fun _ => rfl
  rwa [List.append_nil] at hboth

/-! ### Pieces one after the other -/

/-- The cursor stands where the text it has left begins, and not before the base. -/
structure Ready (s : Source) (c : Cursor) : Prop where
  aligned : Aligned s c
  base_le : s.base ≤ c.pos

theorem Ready.took (h : Ready s c) (htook : Took s c gs d p) : Ready s d where
  aligned := htook.aligned
  base_le := by
    have hle := h.base_le
    have hpos := htook.pos_eq h.aligned
    omega

/-- However a piece is lowered that is still to come, its nodes are those of its outline. -/
def Drawn (s : Source) (root : Concrete) (whole : Prop) (x : Concrete) : Prop :=
  ∀ late site place role c, root.at? site = some x → (whole → Ready s c) →
    (whole → late = false → Unpassed s c.pos role x) →
    Placed s root whole c.pos (lower s place role x c).1 (outline s late site place role x)

/-- Pieces that are lowered one after the other. -/
structure Series (s : Source) (root : Concrete) (whole : Prop) (xs : List Concrete) : Prop where
  drawn : ∀ x ∈ xs, Drawn s root whole x
  laid : whole → ∀ x ∈ xs, x.Laid s.text
  apart : whole → xs.Pairwise fun x y => x.stop ≤ y.start

namespace Series

theorem tail (h : Series s root whole (x :: xs)) : Series s root whole xs where
  drawn := fun y hy => h.drawn y (List.mem_cons_of_mem x hy)
  laid := fun hw y hy => h.laid hw y (List.mem_cons_of_mem x hy)
  apart := fun hw => (List.pairwise_cons.1 (h.apart hw)).2

theorem took_head (h : Series s root whole (x :: xs)) (hw : whole) (hc : Aligned s c) (place : Place)
    (role : Role) :
    Took s c (lower s place role x c).1 (lower s place role x c).2 (RoleFaulting s role x) :=
  lower_lossless (h.laid hw x List.mem_cons_self).fits place role c hc

theorem unpassed_tail {place : Place} {other : Role} (h : Series s root whole (x :: xs)) (hw : whole)
    (hy : y ∈ xs) (hun : Unpassed s c.pos other y) :
    Unpassed s (lower s place role x c).2.pos other y :=
  have hx := h.laid hw x List.mem_cons_self
  unpassed_lower hx.fits hx.nested (h.tail.laid hw y hy).nested
    ((List.pairwise_cons.1 (h.apart hw)).1 y hy) hun

theorem placed_lowerAll (h : Series s root whole xs) (parent : Head) (roles : Nat → Role) (i : Nat)
    (prev : Option String) (named : Bool)
    (hsite : ∀ (j : Nat) (x : Concrete), xs[j]? = some x → root.at? (site ++ [i + j]) = some x)
    (hc : whole → Ready s c)
    (hun : whole → late = false → ∀ (j : Nat) (x : Concrete), xs[j]? = some x →
      Unpassed s c.pos (roles (i + j)) x) :
    Placed s root whole c.pos (lowerAll s parent roles i prev named xs c).1
      (outlineAll s late site parent roles i prev named xs) := by
  induction xs generalizing i prev named c with
  | nil =>
    rw [lowerAll, outlineAll]
    exact .nil
  | cons x xs ih =>
    have hshift : ∀ j, i + 1 + j = i + (j + 1) := fun j => by omega
    have hfirst := h.drawn x List.mem_cons_self late (site ++ [i]) (placeIn parent prev named x xs)
      (roles i) c (hsite 0 x rfl) hc fun hw hlate => hun hw hlate 0 x rfl
    have htook := fun hw => h.took_head hw (hc hw).aligned (placeIn parent prev named x xs) (roles i)
    rw [lowerAll, outlineAll]
    refine hfirst.append_took (fun hw => (hc hw).aligned) htook (ih h.tail _ _ _ (fun j y hy => ?_)
      (fun hw => (hc hw).took (htook hw)) fun hw hlate j y hy => ?_)
    · rw [hshift]
      exact hsite (j + 1) y hy
    · rw [hshift]
      exact h.unpassed_tail hw (List.mem_of_getElem? hy) (hun hw hlate (j + 1) y hy)

/-- The element of destructuring targets that is open, if one is: it began at `pos`. -/
theorem placed_targetElement {run : Option (List Green)} {open_ : Option (List Outline)}
    (hopen : open_.isSome = run.isSome)
    (hrun : Placed s root whole pos (run.getD []) (open_.getD [])) :
    Placed s root whole pos (targetElement run) (outlineElement late open_) := by
  cases run <;> cases open_ <;> simp only [Option.isSome, reduceCtorEq] at hopen
  · exact .nil
  · refine .node (o := ⟨.arrayElement, none, late, _⟩) hrun ?_ .nil
    rintro - - site x hsite
    cases hsite

theorem span_targetElement (run : Option (List Green)) :
    Green.span (Green.leavesAll (targetElement run)) = Green.span (Green.leavesAll (run.getD [])) := by
  cases run with
  | none => rfl
  | some gs => rw [targetElement, Green.leavesAll, Green.leaves, Green.leavesAll, List.append_nil]; rfl

theorem placed_lowerTargets {run : Option (List Green)} {open_ : Option (List Outline)}
    (h : Series s root whole xs) (parent : Head) (i : Nat) (prev : Option String) (named : Bool)
    (hsite : ∀ (j : Nat) (x : Concrete), xs[j]? = some x → root.at? (site ++ [i + j]) = some x)
    (hopen : open_.isSome = run.isSome)
    (hrun : Placed s root whole pos (run.getD []) (open_.getD []))
    (hpos : whole → c.pos = pos + Green.span (Green.leavesAll (run.getD [])))
    (hc : whole → Ready s c)
    (hun : whole → late = false → ∀ x ∈ xs, c.pos ≤ max s.base x.start) :
    Placed s root whole pos (lowerTargets s parent run prev named xs c).1
      (outlineTargets s late site parent open_ i prev named xs) := by
  induction xs generalizing run open_ i prev named pos c with
  | nil =>
    rw [lowerTargets, outlineTargets]
    exact placed_targetElement hopen hrun
  | cons x xs ih =>
    have hsites : ∀ (j : Nat) (y : Concrete), xs[j]? = some y →
        root.at? (site ++ [i + 1 + j]) = some y := fun j y hy => by
      rw [show i + 1 + j = i + (j + 1) by omega]
      exact hsite (j + 1) y hy
    -- the first piece is lowered as it stands, and the others are still to come
    have hfirst : ∀ {c : Cursor} (place : Place), (whole → Ready s c) →
        (whole → late = false → ∀ y ∈ x :: xs, c.pos ≤ max s.base y.start) →
        let d := (lower s place .plain x c).2
        Placed s root whole c.pos (lower s place .plain x c).1
            (outline s late (site ++ [i]) place .plain x) ∧
          (whole → Ready s d) ∧
          (whole → d.pos = c.pos + Green.span (Green.leavesAll (lower s place .plain x c).1)) ∧
          (whole → late = false → ∀ y ∈ xs, d.pos ≤ max s.base y.start) :=
      fun place hc hun => by
        refine ⟨h.drawn x List.mem_cons_self late _ place .plain _ (hsite 0 x rfl) hc
          fun hw hlate => List.forall_mem_singleton.2 (hun hw hlate x List.mem_cons_self),
          fun hw => (hc hw).took (h.took_head hw (hc hw).aligned place .plain),
          fun hw => (h.took_head hw (hc hw).aligned place .plain).pos_eq (hc hw).aligned,
          fun hw hlate y hy => ?_⟩
        have hplain : Unpassed s _ .plain y :=
          List.forall_mem_singleton.2 (hun hw hlate y (List.mem_cons_of_mem x hy))
        exact h.unpassed_tail hw hy hplain y List.mem_cons_self
    obtain ⟨hplaced, hd, hdpos, hdun⟩ := hfirst (placeIn parent prev named x xs) hc hun
    rw [lowerTargets.eq_def, outlineTargets.eq_def]
    dsimp only
    by_cases hdelimiter : isDelimiter x = true
    · rw [if_pos hdelimiter, if_pos hdelimiter]
      refine ((placed_targetElement hopen hrun).append hplaced fun hw => ?_).append
        (ih h.tail _ _ _ hsites rfl .nil (fun _ => rfl) hd hdun) fun hw => ?_
      · rw [span_targetElement, hpos hw]
      · rw [Green.leavesAll_append, Green.span_append, span_targetElement, ← Nat.add_assoc, ← hpos hw]
        exact hdpos hw
    rw [if_neg hdelimiter, if_neg hdelimiter]
    cases run with
    | some gs =>
      obtain ⟨os, rfl⟩ := Option.isSome_iff_exists.1 hopen
      refine ih h.tail _ _ _ hsites rfl (hrun.append hplaced hpos) (fun hw => ?_) hd hdun
      rw [Option.getD_some, Green.leavesAll_append, Green.span_append, ← Nat.add_assoc]
      exact (hdpos hw).trans (congrArg (· + _) (hpos hw))
    | none =>
      cases open_ with
      | some os => cases hopen
      | none =>
      by_cases hcomment : x.kind = "comment"
      · simp only [if_pos hcomment]
        exact (hplaced.congr fun hw => (hpos hw).symm).append
          (ih h.tail _ _ _ hsites rfl .nil (fun _ => rfl) hd hdun) fun hw =>
            (hdpos hw).trans (congrArg (· + _) (hpos hw))
      · simp only [if_neg hcomment]
        have hgap : whole → Took s c (gap s x.start c).1 (gap s x.start c).2 False := fun hw =>
          gap_lossless (h.laid hw x List.mem_cons_self).fits.start c (hc hw).aligned
        have hun : whole → late = false → ∀ y ∈ x :: xs,
            (gap s x.start c).2.pos ≤ max s.base y.start := fun hw hlate y hy => by
          have hpos := hun hw hlate y hy
          rw [pos_gap]
          rcases List.mem_cons.1 hy with rfl | hy
          · omega
          · have hle := (h.laid hw x List.mem_cons_self).fits.start_le_stop
            have hxy := (List.pairwise_cons.1 (h.apart hw)).1 y hy
            omega
        obtain ⟨hplaced, hd, hdpos, hdun⟩ := hfirst (placeIn parent prev named x xs)
          (fun hw => (hc hw).took (hgap hw)) hun
        exact (placed_gap s x.start c pos).append
          (ih h.tail _ _ _ hsites rfl hplaced hdpos hd hdun) fun hw =>
            ((hgap hw).pos_eq (hc hw).aligned).trans (congrArg (· + _) (hpos hw))

end Series

/-! ### A node for a piece -/

theorem Took.text_eq (hc : Aligned s c) (h : Took s c gs d p) :
    (Green.tokensAll gs).flatMap String.toList = Text.slice s.text c.pos d.pos := by
  have hpos := h.pos_eq hc
  obtain ⟨before, htext, hbefore⟩ := hc
  rw [hpos, Green.span_leavesAll, htext, h.rest_eq, ← hbefore, Text.slice_byteLength]

/-- The gap in front of a piece ends where the piece begins, or at the base. -/
theorem pos_gap_start (hc : Ready s c) (hun : c.pos ≤ max s.base x.start) :
    (gap s x.start c).2.pos = max s.base x.start := by
  have hle := hc.base_le
  rw [pos_gap]
  omega

/-- A node of its own for a piece: all that is made up to the end of the piece. -/
theorem placed_own {m : Lower (List Green)} (hx : whole → x.Fits s.text)
    (hsite : root.at? site = some x) (hc : whole → Ready s c)
    (hun : whole → late = false → c.pos ≤ max s.base x.start)
    (hm : Placed s root whole (gap s x.start c).2.pos (m (gap s x.start c).2).1 os)
    (htook : whole → Lossless s m p)
    (hend : whole → late = false → (m (gap s x.start c).2).2.pos = x.stop) :
    let made : Lower (List Green) := do
      let before ← gap s x.start
      let inner ← m
      return before ++ [.node kind inner]
    Placed s root whole c.pos (made c).1 [⟨kind, some site, late, os⟩] := by
  have hgap := fun hw => gap_lossless (hx hw).start c (hc hw).aligned
  have hfills : whole → late = false →
      Fills s x (gap s x.start c).2.pos (m (gap s x.start c).2).1 := fun hw hlate => by
    have hm := htook hw _ (hgap hw).aligned
    refine ⟨pos_gap_start (hc hw) (hun hw hlate), ?_, ?_⟩
    · rw [← hm.pos_eq (hgap hw).aligned, hend hw hlate]
    · rw [hm.text_eq (hgap hw).aligned, hend hw hlate]
  refine (placed_gap s x.start c c.pos).append_took (fun hw => (hc hw).aligned) hgap
    (.node (o := ⟨kind, some site, late, os⟩) hm (fun hw hlate q y hq hy => ?_) .nil)
  obtain rfl := Option.some.inj hq
  obtain rfl := Option.some.inj (hsite.symm.trans hy)
  exact hfills hw hlate

/-- A piece at its site, and its children, none of them lowered yet. -/
structure Ahead (s : Source) (root : Concrete) (whole : Prop) (site : List Nat) (x : Concrete) :
    Prop where
  series : Series s root whole x.children
  laid : whole → x.Laid s.text
  site : root.at? site = some x

namespace Ahead

theorem lossless (h : Ahead s root whole site x) (hw : whole) (roles : Nat → Role) :
    Lossless s (lowerAll s x.head roles 0 none false x.children)
      (∃ (j : Nat) (y : Concrete), x.children[j]? = some y ∧ RoleFaulting s (roles (0 + j)) y) :=
  lowerAll_lossless (fun y hy => lower_lossless ((h.laid hw).fits.children y hy)) x.head roles 0 none
    false

theorem pos_le (h : Ahead s root whole site x) (hw : whole) (roles : Nat → Role)
    (hle : c.pos ≤ x.stop) :
    (lowerAll s x.head roles 0 none false x.children c).2.pos ≤ x.stop := by
  have hx := h.laid hw
  refine pos_lowerAll_le (fun y hy => stays_of_nested (hx.fits.children y hy)
    (hx.nested.children y hy)) hle fun j y hy z hz => ?_
  have hmem := List.mem_of_getElem? hy
  exact (within_of_mem_rolePieces (hx.nested.children y hmem) hz).2.trans (hx.nested.within hmem).2

theorem placed_lowerAll (h : Ahead s root whole site x) (late : Bool) (roles : Nat → Role)
    (hc : whole → Ready s c)
    (hun : whole → late = false → ∀ (j : Nat) (y : Concrete), x.children[j]? = some y →
      Unpassed s c.pos (roles (0 + j)) y) :
    Placed s root whole c.pos (lowerAll s x.head roles 0 none false x.children c).1
      (outlineAll s late site x.head roles 0 none false x.children) :=
  h.series.placed_lowerAll x.head roles 0 none false (fun j y hy => by
    rw [Nat.zero_add, Concrete.at?_child h.site, hy]) hc hun

theorem unpassed (h : Ahead s root whole site x) (hw : whole) (hle : c.pos ≤ max s.base x.start)
    (roles : Nat → Role) (j : Nat) (y : Concrete) (hy : x.children[j]? = some y) :
    Unpassed s c.pos (roles (0 + j)) y := by
  have hmem := List.mem_of_getElem? hy
  have hin := (h.laid hw).nested.within hmem
  exact unpassed_of_le ((h.laid hw).nested.children y hmem) (by omega) _

/-- A node around what the children of a piece turn into. -/
theorem placed_inside {m : Lower (List Green)} (h : Ahead s root whole site x)
    (hwide : s.base < x.stop) (hc : whole → Ready s c)
    (hun : whole → late = false → c.pos ≤ max s.base x.start)
    (hm : ∀ c, (whole → Ready s c) → (whole → late = false → c.pos ≤ max s.base x.start) →
      Placed s root whole c.pos (m c).1 os)
    (htook : whole → Lossless s m p)
    (hle : whole → ∀ c : Cursor, c.pos ≤ x.stop → (m c).2.pos ≤ x.stop) :
    let made : Lower (List Green) := do
      let before ← gap s x.start
      let inner ← m
      let after ← gap s x.stop
      return before ++ [.node kind (inner ++ after)]
    Placed s root whole c.pos (made c).1 [⟨kind, some site, late, os⟩] := by
  have hgap := fun hw => (hc hw).took (gap_lossless (h.laid hw).fits.start c (hc hw).aligned)
  have hstart : whole → late = false → (gap s x.start c).2.pos = max s.base x.start :=
    fun hw hlate => pos_gap_start (hc hw) (hun hw hlate)
  have hinner := hm (gap s x.start c).2 hgap fun hw hlate => (hstart hw hlate).le
  refine placed_own (m := do let inner ← m; let after ← gap s x.stop; return inner ++ after)
    (fun hw => (h.laid hw).fits) h.site hc hun (hinner.gap x.stop (m (gap s x.start c).2).2)
    (fun hw => (htook hw).append (gap_lossless (h.laid hw).fits.stop)) fun hw hlate => ?_
  change (gap s x.stop (m (gap s x.start c).2).2).2.pos = x.stop
  have hx := (h.laid hw).fits.start_le_stop
  have hlast := hle hw _ ((hstart hw hlate).le.trans (Nat.max_le.2 ⟨hwide.le, hx⟩))
  rw [pos_gap]
  exact Nat.max_eq_right hlast

theorem placed_elseIf (h : Ahead s root whole site x) (body : Nat) (hc : whole → Ready s c)
    (hun : whole → late = false → c.pos ≤ max s.base x.start) :
    let made : Lower (List Green) := do
      let before ← gap s x.start
      let inner ← lowerAll s x.head (fun i => if i = body then .leading else .plain) 0 none false
        x.children
      let others ← lowerAll s x.head (fun i => if i = body then .trailing else .skip) 0 none false
        x.children
      return before ++ .node .elseIfClause inner :: others
    Placed s root whole c.pos (made c).1
      (⟨.elseIfClause, none, late, outlineAll s late site x.head
          (fun i => if i = body then .leading else .plain) 0 none false x.children⟩
        :: outlineAll s (late || body + 1 < x.children.length) site x.head
          (fun i => if i = body then .trailing else .skip) 0 none false x.children) := by
  have htook := fun hw => gap_lossless (h.laid hw).fits.start c (hc hw).aligned
  have hgap := fun hw => (hc hw).took (htook hw)
  have hstart : whole → late = false → (gap s x.start c).2.pos ≤ max s.base x.start :=
    fun hw hlate => (pos_gap_start (hc hw) (hun hw hlate)).le
  have hinner := h.placed_lowerAll late (fun i => if i = body then .leading else .plain) hgap
    fun hw hlate => h.unpassed hw (hstart hw hlate) fun i => if i = body then .leading else .plain
  have hleading := fun hw => h.lossless hw (fun i => if i = body then .leading else .plain) _
    (hgap hw).aligned
  have hothers := h.placed_lowerAll (late || body + 1 < x.children.length)
    (fun i => if i = body then .trailing else .skip) (fun hw => (hgap hw).took (hleading hw))
    fun hw hlate => by
      rw [Bool.or_eq_false_iff, decide_eq_false_iff_not, Nat.not_lt] at hlate
      exact unpassed_trailing (h.laid hw).fits (h.laid hw).nested hlate.2 (hstart hw hlate.1)
  refine (placed_gap s x.start c c.pos).append_took (fun hw => (hc hw).aligned) htook
    (.node (o := ⟨.elseIfClause, none, late, _⟩) hinner (fun _ _ site x hsite => by cases hsite)
      (hothers.congr fun hw => ?_))
  exact ((hleading hw).pos_eq (hgap hw).aligned).symm

theorem placed_targets (h : Ahead s root whole site x) (hwide : s.base < x.stop)
    (hc : whole → Ready s c) (hun : whole → late = false → c.pos ≤ max s.base x.start) :
    let made : Lower (List Green) := do
      let before ← gap s x.start
      let inner ← lowerTargets s x.head none none false x.children
      let after ← gap s x.stop
      return before ++ [.node kind (inner ++ after)]
    Placed s root whole c.pos (made c).1 [⟨kind, some site, late,
      outlineTargets s late site x.head none 0 none false x.children⟩] := by
  have hsites : ∀ (j : Nat) (y : Concrete), x.children[j]? = some y →
      root.at? (site ++ [0 + j]) = some y := fun j y hy => by
    rw [Nat.zero_add, Concrete.at?_child h.site, hy]
  refine h.placed_inside (p := ∃ y ∈ x.children, Faulting s y) hwide hc hun
    (fun d hd hdun => h.series.placed_lowerTargets x.head 0 none false hsites rfl .nil (fun _ => rfl)
      hd fun hw hlate y hy => ?_) (fun hw => ?_) fun hw d hd => ?_
  · obtain ⟨j, hj⟩ := List.getElem?_of_mem hy
    exact h.unpassed hw (hdun hw hlate) (fun _ => .plain) j y hj y List.mem_cons_self
  · have hx := (h.laid hw).fits.children
    exact lowerTargets_lossless (fun y hy => (hx y hy).start) (fun y hy => lower_lossless (hx y hy))
      x.head
  · have hx := h.laid hw
    refine pos_lowerTargets_le (fun y hy => stays_of_nested (hx.fits.children y hy)
      (hx.nested.children y hy)) hd fun y hy => ?_
    have hin := hx.nested.within hy
    exact ⟨((hx.fits.children y hy).start_le_stop).trans hin.2, hin.2⟩

theorem placed_plain (h : Ahead s root whole site x) (place : Place) (hc : whole → Ready s c)
    (hun : whole → late = false → c.pos ≤ max s.base x.start) :
    Placed s root whole c.pos (lower s place .plain x c).1
      (outline s late site place .plain x) := by
  have hall : ∀ (roles : Nat → Role) (c : Cursor), (whole → Ready s c) →
      (whole → late = false → c.pos ≤ max s.base x.start) →
      Placed s root whole c.pos (lowerAll s x.head roles 0 none false x.children c).1
        (outlineAll s late site x.head roles 0 none false x.children) := fun roles c hc hun =>
    h.placed_lowerAll late roles hc fun hw hlate => h.unpassed hw (hun hw hlate) roles
  have htook := h.lossless
  have hle : ∀ roles, whole → ∀ c : Cursor, c.pos ≤ x.stop →
      (lowerAll s x.head roles 0 none false x.children c).2.pos ≤ x.stop := fun roles hw _ hc =>
    h.pos_le hw roles hc
  obtain ⟨head, children⟩ := x
  rw [lower, outline]
  by_cases hmissing : head.missing = true
  · rw [if_pos hmissing, if_pos hmissing]
    exact .nil
  rw [if_neg hmissing, if_neg hmissing]
  by_cases hempty : head.start = head.stop ∨ head.stop ≤ s.base
  · rw [if_pos hempty, if_pos hempty]
    exact .nil
  rw [if_neg hempty, if_neg hempty]
  have hwide : s.base < head.stop := Nat.lt_of_not_le fun hle => hempty (.inr hle)
  by_cases herror : head.error = true
  · rw [if_pos herror, if_pos herror]
    refine h.placed_inside (c := { c with errors := c.errors ++ [unexpected s _ head.start] }) hwide
      (fun hw => ⟨(hc hw).aligned, (hc hw).base_le⟩) hun (hall _) (htook · _) (hle _)
  rw [if_neg herror, if_neg herror]
  cases Treatment.of s.text place ⟨head, children⟩ with
  | error fault => exact placed_leaf s .errorToken ⟨head, children⟩ _ _
  | ok treatment =>
  cases treatment with
  | leaf kind => exact placed_leaf s kind ⟨head, children⟩ c c.pos
  | wrapped node token =>
    refine placed_own (x := ⟨head, children⟩) (m := leaf s token ⟨head, children⟩)
      (fun hw => (h.laid hw).fits) h.site hc hun (placed_leaf _ _ _ _ _)
      (fun hw => leaf_lossless (h.laid hw).fits.start (h.laid hw).fits.stop token)
      fun hw hlate => ?_
    have hx := (h.laid hw).fits.start_le_stop
    rw [pos_leaf, pos_gap_start (hc hw) (hun hw hlate)]
    dsimp only [Concrete.start, Concrete.stop] at *
    omega
  | composite kind => exact h.placed_inside hwide hc hun (hall _) (htook · _) (hle _)
  | transparent => exact (hall _ c hc hun).gap head.stop _
  | keywordCall node keyword callee =>
    exact h.placed_inside hwide hc hun (hall _) (htook · _) (hle _)
  | elseIf body => exact h.placed_elseIf body hc hun
  | targets => exact h.placed_targets hwide hc hun

end Ahead

theorem ahead_of_drawn (hx : whole → x.Laid s.text) (hsite : root.at? site = some x)
    (h : ∀ y ∈ x.children, Drawn s root whole y) : Ahead s root whole site x where
  series := ⟨h, fun hw => (hx hw).children, fun hw => (hx hw).nested.pairwise⟩
  laid := hx
  site := hsite

/-- Every piece is lowered to the nodes of its outline, which stand where it says if the pieces are
nested. -/
theorem drawn_of_laid (hx : whole → x.Laid s.text) : Drawn s root whole x := by
  induction x using Concrete.induction with
  | mk head children ih =>
    intro late site place role c hsite hc hun
    have h : Ahead s root whole site ⟨head, children⟩ := ahead_of_drawn hx hsite fun y hy =>
      ih y hy fun hw => (hx hw).children y hy
    cases role with
    | plain => exact h.placed_plain place hc fun hw hlate => hun hw hlate _ List.mem_cons_self
    | skip =>
      rw [lower, outline]
      exact .nil
    | keyword kind =>
      rw [lower, outline]
      exact placed_leaf s kind ⟨head, children⟩ c c.pos
    | leading =>
      rw [lower, outline]
      exact h.placed_lowerAll _ _ hc fun hw hlate j y hy z hz => hun hw hlate z (mem_leading hy hz)
    | trailing =>
      rw [lower, outline]
      exact h.placed_lowerAll _ _ hc fun hw hlate j y hy z hz => hun hw hlate z (mem_trailing hy hz)

theorem ahead_of_laid (hx : whole → x.Laid s.text) (hsite : root.at? site = some x) :
    Ahead s root whole site x :=
  ahead_of_drawn hx hsite fun y hy => drawn_of_laid fun hw => (hx hw).children y hy

end Lower

end PhpLint
