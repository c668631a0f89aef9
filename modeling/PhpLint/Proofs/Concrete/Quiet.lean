import PhpLint.Proofs.Concrete.Origins
import PhpLint.Proofs.Text.Blank

/-! Lowering a piece without fault reports nothing, as long as its pieces cover the text but for
white space. What carries the induction is that the text between the cursor and the next piece is
blank: every piece is left with nothing but white space between the cursor and its end. -/

namespace PhpLint

open Text (Blank)

namespace Concrete

/-- Nothing but white space stands from an offset to the first piece, between two pieces, and from
the last piece to another offset. -/
def Spaced (text : List Char) : Nat → List Concrete → Nat → Prop
  | a, [], b => Blank text a b
  | a, x :: xs, b => Blank text a x.start ∧ Spaced text x.stop xs b

/-- The pieces of a tree cover its text but for white space. Nothing is asked of what lies in a piece
that is one token, and an `if` behind an `else` is the last piece there. -/
inductive Covered (text : List Char) : Concrete → Prop
  | token {x : Concrete} :
    (∀ place treatment, Treatment.of text place x = .ok treatment → treatment.IsToken) →
    Covered text x
  | pieces {x : Concrete} : Spaced text x.start x.children x.stop →
    (x.kind = "else_clause" → ∀ y ∈ x.children.dropLast, y.kind ≠ "if_statement") →
    (∀ y ∈ x.children, Covered text y) → Covered text x

theorem Covered.of_not_isToken {text : List Char} {x : Concrete} {place : Place}
    {treatment : Treatment} (h : x.Covered text)
    (hof : Treatment.of text place x = .ok treatment) (htoken : ¬ treatment.IsToken) :
    Spaced text x.start x.children x.stop ∧
      (x.kind = "else_clause" → ∀ y ∈ x.children.dropLast, y.kind ≠ "if_statement") ∧
      ∀ y ∈ x.children, y.Covered text := by
  cases h with
  | token h => exact absurd (h place treatment hof) htoken
  | pieces hspaced hlast hchildren => exact ⟨hspaced, hlast, hchildren⟩

end Concrete

namespace Lower

variable {s : Source} {c d e : Cursor} {x y : Concrete} {xs : List Concrete} {a b stop : Nat}

/-- From `c` to `d` nothing is reported, and up to `b` only white space is left. -/
structure Quiet (s : Source) (c d : Cursor) (b : Nat) : Prop where
  aligned : Aligned s d
  base : s.base ≤ d.pos
  errors : d.errors = c.errors
  blank : Blank s.text d.pos b

theorem Aligned.boundary (h : Aligned s c) : Text.Boundary s.text c.pos := by
  obtain ⟨before, htext, hpos⟩ := h
  exact ⟨before, c.rest, htext, hpos⟩

theorem gapErrors_eq_nil {offset : Nat} {rs : List (List Char)}
    (h : ∀ run ∈ rs, isBlankRun run = true) : gapErrors s offset rs = [] := by
  induction rs generalizing offset with
  | nil => rfl
  | cons run rs ih =>
    rw [List.forall_mem_cons] at h
    rw [gapErrors, if_pos h.1, ih h.2, List.nil_append]

theorem isBlankRun_of_blank {text run : List Char} (h : ∀ ch ∈ text, Text.isBlank ch = true)
    (hrun : run ∈ runs text) : isBlankRun run = true := by
  obtain ⟨ch, hch⟩ := List.exists_mem_of_ne_nil run (List.ne_nil_of_mem_splitBy hrun)
  rw [← isBlank_eq_of_mem_runs hrun ch hch]
  refine h ch ?_
  rw [← List.flatten_splitBy (r := fun a b => Text.isBlank a == Text.isBlank b) (l := text)]
  exact List.mem_flatten.2 ⟨run, hrun, hch⟩

theorem gap_quiet (hc : Aligned s c) (hbase : s.base ≤ c.pos) (hstop : Text.Boundary s.text stop)
    (h : Blank s.text c.pos stop) : Quiet s c (gap s stop c).2 stop := by
  refine ⟨(gap_lossless hstop c hc).aligned, ?_, ?_, Text.blank_of_le (le_pos_gap s stop c)⟩
  · rw [pos_gap]
    exact hbase.trans (Nat.le_max_left ..)
  · rw [gap_eq]
    split
    next => rfl
    next hlt =>
      have hruns : gapErrors s c.pos (runs (cut stop c).1) = [] := by
        rw [cut_eq_slice hc hstop (Nat.le_of_not_le hlt)]
        exact gapErrors_eq_nil fun run hrun => isBlankRun_of_blank h hrun
      rw [hruns]
      exact List.append_nil _

namespace Quiet

theorem trans (h : Quiet s c d a) (h' : Quiet s d e b) : Quiet s c e b :=
  ⟨h'.aligned, h'.base, h'.errors.trans h.errors, h'.blank⟩

theorem refl (hc : Aligned s c) (hbase : s.base ≤ c.pos) (h : Blank s.text c.pos b) :
    Quiet s c c b := ⟨hc, hbase, rfl, h⟩

end Quiet

theorem leaf_quiet (hc : Aligned s c) (hbase : s.base ≤ c.pos) (hx : x.Fits s.text)
    (hclean : x.head.faulty = false) (h : Blank s.text c.pos x.start) (kind : Kind) :
    Quiet s c (leaf s kind x c).2 x.stop := by
  have hgap := gap_quiet hc hbase hx.start h
  have haligned := (leaf_lossless hx.start hx.stop kind c hc).aligned
  have heq := leaf_eq s kind x c
  simp only [hclean, Bool.false_eq_true, if_false] at heq
  by_cases hle : x.stop ≤ (gap s x.start c).2.pos
  · rw [heq, if_pos hle]
    exact ⟨hgap.aligned, hgap.base, hgap.errors, Text.blank_of_le hle⟩
  · rw [heq, if_neg hle] at haligned ⊢
    exact ⟨haligned, hgap.base.trans (Nat.le_of_not_le hle), hgap.errors,
      Text.blank_of_le (Nat.le_refl x.stop)⟩

/-! Where a piece in a role begins and ends. -/

/-- Where the alternatives of an `if` begin. -/
def turn (x : Concrete) : Nat :=
  ((x.children.drop (leadingCount x.children)).head?.map (·.start)).getD x.stop

def entry : Role → Concrete → Nat
  | .trailing, x => turn x
  | _, x => x.start

def exit : Role → Concrete → Nat
  | .leading, x => turn x
  | _, x => x.stop

theorem boundary_turn (hx : x.Fits s.text) : Text.Boundary s.text (turn x) := by
  unfold turn
  cases hhead : (x.children.drop (leadingCount x.children)).head? with
  | none => exact hx.stop
  | some y => exact (hx.children y (List.mem_of_mem_drop (List.mem_of_head? hhead))).start

theorem boundary_entry (hx : x.Fits s.text) (role : Role) : Text.Boundary s.text (entry role x) := by
  cases role <;> first | exact hx.start | exact boundary_turn hx

theorem boundary_exit (hx : x.Fits s.text) (role : Role) : Text.Boundary s.text (exit role x) := by
  cases role <;> first | exact hx.stop | exact boundary_turn hx

/-- The same as `Concrete.Spaced` for pieces that each have a role. -/
def Laid (text : List Char) (role : Nat → Role) : Nat → Nat → List Concrete → Nat → Prop
  | a, _, [], b => Blank text a b
  | a, i, x :: xs, b =>
    if role i = .skip then Laid text role a (i + 1) xs b
    else Blank text a (entry (role i) x) ∧ Laid text role (exit (role i) x) (i + 1) xs b

/-- Only an `if` is lowered in two halves. -/
def Splits (role : Role) (x : Concrete) : Prop :=
  role = .leading ∨ role = .trailing → x.kind = "if_statement"

/-- Lowering the piece in any role goes over it quietly. -/
def Settled (s : Source) (x : Concrete) : Prop :=
  ∀ place role c, role ≠ .skip → Splits role x → Aligned s c → s.base ≤ c.pos →
    Blank s.text c.pos (entry role x) → Quiet s c (lower s place role x c).2 (exit role x)

theorem lowerAll_quiet (h : ∀ x ∈ xs, Settled s x) (hfits : ∀ x ∈ xs, x.Fits s.text)
    (parent : Head) {role : Nat → Role} {i : Nat} (prev : Option String) (named : Bool)
    (ha : Text.Boundary s.text a) (hb : Text.Boundary s.text b) (hc : Aligned s c)
    (hbase : s.base ≤ c.pos) (hblank : Blank s.text c.pos a) (hlaid : Laid s.text role a i xs b)
    (hsplits : ∀ (j : Nat) (x : Concrete), xs[j]? = some x → Splits (role (i + j)) x) :
    Quiet s c (lowerAll s parent role i prev named xs c).2 b := by
  induction xs generalizing i prev named c a with
  | nil =>
    rw [lowerAll]
    exact .refl hc hbase (hblank.trans hc.boundary ha hb hlaid)
  | cons x xs ih =>
    rw [List.forall_mem_cons] at h hfits
    have hshift : ∀ (j : Nat) (y : Concrete), xs[j]? = some y → Splits (role (i + 1 + j)) y :=
      fun j y hy => by
        rw [Nat.add_assoc, Nat.add_comm 1]
        exact hsplits (j + 1) y hy
    rw [lowerAll]
    rw [Laid] at hlaid
    split at hlaid
    next hskip =>
      rw [hskip]
      have hnothing : lower s (placeIn parent prev named x xs) .skip x = pure [] := by
        obtain ⟨head, children⟩ := x
        rw [lower]
      rw [hnothing]
      exact ih h.2 hfits.2 _ _ ha hc hbase hblank hlaid hshift
    next hrole =>
      have hentry := hblank.trans hc.boundary ha (boundary_entry hfits.1 (role i)) hlaid.1
      have hx := h.1 (placeIn parent prev named x xs) (role i) c hrole (hsplits 0 x rfl) hc hbase
        hentry
      exact hx.trans (ih h.2 hfits.2 (some x.kind) (named || Treatment.isNameKind x.kind)
        (boundary_exit hfits.1 (role i)) hx.aligned hx.base hx.blank hlaid.2 hshift)

theorem laid_of_spaced {text : List Char} {role : Nat → Role} {i : Nat}
    (hrole : ∀ j, i ≤ j → role j = .plain ∨ ∃ kind, role j = .keyword kind)
    (h : Concrete.Spaced text a xs b) : Laid text role a i xs b := by
  induction xs generalizing a i with
  | nil => exact h
  | cons x xs ih =>
    rw [Laid]
    have hrest := ih (fun j hj => hrole j (Nat.le_of_succ_le hj)) h.2
    rcases hrole i (Nat.le_refl i) with hi | ⟨kind, hi⟩
    · rw [hi, if_neg (by simp)]
      exact ⟨h.1, hrest⟩
    · rw [hi, if_neg (by simp)]
      exact ⟨h.1, hrest⟩

theorem laid_skip {text : List Char} {role : Nat → Role} {i : Nat}
    (hrole : ∀ j, i ≤ j → role j = .skip) (h : Blank text a b) : Laid text role a i xs b := by
  induction xs generalizing i with
  | nil => exact h
  | cons x xs ih =>
    rw [Laid, if_pos (hrole i (Nat.le_refl i))]
    exact ih fun j hj => hrole j (Nat.le_of_succ_le hj)

/-- Only the pieces before number `n`: up to that one, or to the end. -/
theorem laid_take {text : List Char} {n i k : Nat} (hk : n = i + k)
    (h : Concrete.Spaced text a xs b) :
    Laid text (fun j => if j < n then .plain else .skip) a i xs
      (((xs.drop k).head?.map (·.start)).getD b) := by
  induction xs generalizing a i k with
  | nil => simpa [Laid, Concrete.Spaced] using h
  | cons x xs ih =>
    cases k with
    | zero => exact laid_skip (fun j hj => if_neg (by omega)) h.1
    | succ k =>
      rw [Laid, if_pos (by omega : i < n), if_neg (by simp)]
      exact ⟨h.1, ih (by omega) h.2⟩

/-- Only the pieces from number `n` on, from that one. -/
theorem laid_drop {text : List Char} {n i k : Nat} (hk : n = i + k)
    (h : Concrete.Spaced text a xs b) :
    Laid text (fun j => if j < n then .skip else .plain)
      (((xs.drop k).head?.map (·.start)).getD b) i xs b := by
  induction xs generalizing a i k with
  | nil => simpa [Laid] using Text.blank_of_le (Nat.le_refl b)
  | cons x xs ih =>
    cases k with
    | zero =>
      rw [Laid, if_neg (by omega : ¬ i < n), if_neg (by simp)]
      exact ⟨Text.blank_of_le (Nat.le_refl x.start),
        laid_of_spaced (fun j hj => .inl (if_neg (by omega))) h.2⟩
    | succ k =>
      rw [Laid, if_pos (by omega : i < n), if_pos rfl]
      exact ih (by omega) h.2

/-- All pieces, the last one up to its alternatives. -/
theorem laid_leading {text : List Char} {body i : Nat} (hbody : body = i + xs.length)
    (h : Concrete.Spaced text a (xs ++ [y]) b) :
    Laid text (fun j => if j = body then .leading else .plain) a i (xs ++ [y]) (turn y) := by
  induction xs generalizing a i with
  | nil =>
    obtain rfl : body = i := hbody
    rw [List.nil_append, Laid]
    simp only [if_true, reduceCtorEq, if_false]
    exact ⟨h.1, Text.blank_of_le (Nat.le_refl _)⟩
  | cons x xs ih =>
    rw [List.length_cons] at hbody
    rw [List.cons_append, Laid, if_neg (by omega : ¬ i = body), if_neg (by simp)]
    exact ⟨h.1, ih (by omega) h.2⟩

/-- The alternatives of the last piece alone. -/
theorem laid_trailing {text : List Char} {body i : Nat} (hbody : body = i + xs.length)
    (h : Concrete.Spaced text a (xs ++ [y]) b) :
    Laid text (fun j => if j = body then .trailing else .skip) (turn y) i (xs ++ [y]) b := by
  induction xs generalizing a i with
  | nil =>
    obtain rfl : body = i := hbody
    rw [List.nil_append, Laid]
    simp only [if_true, reduceCtorEq, if_false]
    exact ⟨Text.blank_of_le (Nat.le_refl _), h.2⟩
  | cons x xs ih =>
    rw [List.length_cons] at hbody
    rw [List.cons_append, Laid, if_neg (by omega : ¬ i = body), if_pos rfl]
    exact ih (by omega) h.2

theorem lowerTargets_quiet (h : ∀ x ∈ xs, Settled s x) (hfits : ∀ x ∈ xs, x.Fits s.text)
    (parent : Head) (run : Option (List Green)) (prev : Option String) (named : Bool)
    (ha : Text.Boundary s.text a) (hb : Text.Boundary s.text b) (hc : Aligned s c)
    (hbase : s.base ≤ c.pos) (hblank : Blank s.text c.pos a)
    (hspaced : Concrete.Spaced s.text a xs b) :
    Quiet s c (lowerTargets s parent run prev named xs c).2 b := by
  induction xs generalizing run prev named c a with
  | nil =>
    rw [lowerTargets]
    exact .refl hc hbase (hblank.trans hc.boundary ha hb hspaced)
  | cons x xs ih =>
    rw [List.forall_mem_cons] at h hfits
    have hfront := hblank.trans hc.boundary ha hfits.1.start hspaced.1
    have hplain : ∀ {c : Cursor}, Aligned s c → s.base ≤ c.pos → Blank s.text c.pos x.start →
        Quiet s c (lower s (placeIn parent prev named x xs) .plain x c).2 x.stop :=
      fun hc hbase hblank => h.1 _ .plain _ (by simp) (by simp [Splits]) hc hbase hblank
    have hrest : ∀ {c : Cursor} (run : Option (List Green)), Aligned s c → s.base ≤ c.pos →
        Blank s.text c.pos x.stop →
        Quiet s c (lowerTargets s parent run (some x.kind)
          (named || Treatment.isNameKind x.kind) xs c).2 b := fun run hc hbase hblank =>
      ih h.2 hfits.2 run _ _ hfits.1.stop hc hbase hblank hspaced.2
    rw [lowerTargets.eq_def]
    dsimp only
    have hx := hplain hc hbase hfront
    by_cases hdelimiter : isDelimiter x = true
    · rw [if_pos hdelimiter]
      exact hx.trans (hrest none hx.aligned hx.base hx.blank)
    rw [if_neg hdelimiter]
    cases run with
    | some gs => exact hx.trans (hrest _ hx.aligned hx.base hx.blank)
    | none =>
      by_cases hcomment : x.kind = "comment"
      · simp only [if_pos hcomment]
        exact hx.trans (hrest none hx.aligned hx.base hx.blank)
      · simp only [if_neg hcomment]
        have hgap := gap_quiet hc hbase hfits.1.start hfront
        have hx := hplain hgap.aligned hgap.base hgap.blank
        exact hgap.trans (hx.trans (hrest _ hx.aligned hx.base hx.blank))

theorem exists_eq_append_of_ofElse {body : Nat} (h : Treatment.ofElse x = .elseIf body)
    (hlast : ∀ y ∈ x.children.dropLast, y.kind ≠ "if_statement") :
    ∃ front y, x.children = front ++ [y] ∧ body = 0 + front.length := by
  obtain ⟨y, hy⟩ : ∃ y, x.children[body]? = some y := by
    unfold Treatment.ofElse at h
    dsimp only at h
    split at h
    next i _ =>
      split at h
      next hif =>
        cases h
        obtain ⟨y, hy, -⟩ := (Option.any_eq_true ..).1 hif
        exact ⟨y, hy⟩
      next => cases h
    next => cases h
  have hlt := (List.getElem?_eq_some_iff.1 hy).1
  have hne : x.children ≠ [] := List.ne_nil_of_length_pos (Nat.zero_lt_of_lt hlt)
  refine ⟨x.children.dropLast, x.children.getLast hne, (List.dropLast_append_getLast hne).symm, ?_⟩
  rw [List.length_dropLast, Nat.zero_add]
  by_contra hbody
  refine hlast y (List.mem_of_getElem? (i := body) ?_) (Treatment.kind_of_ofElse_eq_elseIf h hy)
  rw [List.getElem?_dropLast, if_pos (by omega), hy]

/-- The two halves of an `if` behind an `else`, with what stands around it. -/
theorem elseIf_quiet (hx : x.Fits s.text) {body : Nat} (hof : Treatment.ofElse x = .elseIf body)
    (hspaced : Concrete.Spaced s.text x.start x.children x.stop)
    (hlast : ∀ y ∈ x.children.dropLast, y.kind ≠ "if_statement")
    (h : ∀ y ∈ x.children, Settled s y) (hc : Aligned s c) (hbase : s.base ≤ c.pos)
    (hblank : Blank s.text c.pos x.start) :
    let made : Lower (List Green) := do
      let before ← gap s x.start
      let inner ← lowerAll s x.head (fun i => if i = body then .leading else .plain) 0 none false
        x.children
      let others ← lowerAll s x.head (fun i => if i = body then .trailing else .skip) 0 none false
        x.children
      return before ++ .node .elseIfClause inner :: others
    Quiet s c (made c).2 x.stop := by
  obtain ⟨front, y, hchildren, hbody⟩ := exists_eq_append_of_ofElse hof hlast
  have hsplits : ∀ {role : Role} (other : Role), (role = .leading ∨ role = .trailing) →
      (other = .plain ∨ other = .skip) → ∀ (j : Nat) (z : Concrete), x.children[j]? = some z →
      Splits (if 0 + j = body then role else other) z := by
    intro role other _ hother j z hz hsplit
    rw [Nat.zero_add] at hsplit
    split at hsplit
    next hj => exact Treatment.kind_of_ofElse_eq_elseIf hof (hj ▸ hz)
    next => rcases hother with rfl | rfl <;> simp at hsplit
  have hfits := hx.children
  have hbefore := gap_quiet hc hbase hx.start hblank
  rw [hchildren] at hspaced h hfits hsplits
  have hy := hfits y (List.mem_append_right _ List.mem_cons_self)
  have hinner := lowerAll_quiet h hfits x.head none false hx.start (boundary_turn hy)
    hbefore.aligned hbefore.base hbefore.blank (laid_leading hbody hspaced)
    (hsplits _ (.inl rfl) (.inl rfl))
  have hothers := lowerAll_quiet h hfits x.head none false (boundary_turn hy) hx.stop
    hinner.aligned hinner.base hinner.blank (laid_trailing hbody hspaced)
    (hsplits _ (.inr rfl) (.inr rfl))
  rw [hchildren]
  exact hbefore.trans (hinner.trans hothers)

/-- A piece that is neither missing nor an error, nor has such pieces, goes without report. -/
theorem lower_plain_quiet (hx : x.Fits s.text) (hmarked : x.Marked) (hclean : ¬ x.Faulty)
    (hcovered : x.Covered s.text)
    (h : ∀ y ∈ x.children, y.Covered s.text → Settled s y) (place : Place) (hc : Aligned s c)
    (hbase : s.base ≤ c.pos) (hblank : Blank s.text c.pos x.start) :
    Quiet s c (lower s place .plain x c).2 x.stop := by
  have hmissing : ¬ x.head.missing = true := fun hm => hclean (.missing hm)
  have herror : ¬ x.head.error = true := fun he => hclean (.error he)
  have hfaulty : x.head.faulty = false := Bool.eq_false_iff.2 (hclean ∘ hmarked.faulty_iff.1)
  obtain ⟨head, children⟩ := x
  rw [lower]
  change ¬ head.missing = true at hmissing
  change ¬ head.error = true at herror
  rw [if_neg hmissing]
  by_cases hempty : head.start = head.stop ∨ head.stop ≤ s.base
  · rw [if_pos hempty]
    refine .refl hc hbase ?_
    rcases hempty with heq | hle
    · change Blank s.text c.pos head.stop
      exact heq ▸ hblank
    · exact Text.blank_of_le (hle.trans hbase)
  rw [if_neg hempty, if_neg herror]
  have hleaf : ∀ (c : Cursor) kind, Aligned s c → s.base ≤ c.pos → Blank s.text c.pos head.start →
      Quiet s c (leaf s kind ⟨head, children⟩ c).2 head.stop := fun c kind hc hbase hblank =>
    leaf_quiet (x := ⟨head, children⟩) hc hbase hx hfaulty hblank kind
  have hbefore := gap_quiet hc hbase hx.start hblank
  have hinside : ∀ {m : Lower (List Green)} {kind : Kind},
      (∀ c, Aligned s c → s.base ≤ c.pos → Blank s.text c.pos head.start →
        Quiet s c (m c).2 head.stop) →
      Quiet s c ((do
        let before ← gap s head.start
        let inner ← m
        let after ← gap s head.stop
        return before ++ [Green.node kind (inner ++ after)] : Lower (List Green)) c).2 head.stop := by
    intro m kind hm
    have hinner := hm _ hbefore.aligned hbefore.base hbefore.blank
    exact hbefore.trans (hinner.trans (gap_quiet hinner.aligned hinner.base hx.stop hinner.blank))
  have hall : ∀ {role : Nat → Role}, (∀ j, 0 ≤ j → role j = .plain ∨ ∃ kind, role j = .keyword kind) →
      Concrete.Spaced s.text head.start children head.stop →
      (∀ y ∈ children, y.Covered s.text) → ∀ c, Aligned s c → s.base ≤ c.pos →
      Blank s.text c.pos head.start →
      Quiet s c (lowerAll s head role 0 none false children c).2 head.stop := by
    intro role hrole hspaced hchildren c hc hbase hblank
    refine lowerAll_quiet (fun y hy => h y hy (hchildren y hy)) hx.children head none false hx.start
      hx.stop hc hbase hblank (laid_of_spaced hrole hspaced) fun j y _ hsplit => ?_
    rw [Nat.zero_add] at hsplit
    rcases hrole j (Nat.zero_le j) with hj | ⟨kind, hj⟩ <;> rw [hj] at hsplit <;> simp at hsplit
  cases hof : Treatment.of s.text place ⟨head, children⟩ with
  | error fault =>
    have hnoted := hleaf { c with fault := c.fault.or (some fault) } .errorToken hc hbase hblank
    exact ⟨hnoted.aligned, hnoted.base, hnoted.errors, hnoted.blank⟩
  | ok treatment =>
  cases treatment with
  | leaf kind => exact hleaf c kind hc hbase hblank
  | wrapped node token =>
    exact hbefore.trans (hleaf _ token hbefore.aligned hbefore.base hbefore.blank)
  | composite kind =>
    obtain ⟨hspaced, -, hchildren⟩ := hcovered.of_not_isToken hof id
    exact hinside (hall (fun _ _ => .inl rfl) hspaced hchildren)
  | transparent =>
    obtain ⟨hspaced, -, hchildren⟩ := hcovered.of_not_isToken hof id
    have hinner := hall (fun _ _ => .inl rfl) hspaced hchildren c hc hbase hblank
    exact hinner.trans (gap_quiet hinner.aligned hinner.base hx.stop hinner.blank)
  | keywordCall node keyword callee =>
    obtain ⟨hspaced, -, hchildren⟩ := hcovered.of_not_isToken hof id
    refine hinside (hall (fun i _ => ?_) hspaced hchildren)
    split
    · exact .inr ⟨keyword, rfl⟩
    · exact .inl rfl
  | elseIf body =>
    obtain ⟨hspaced, hlast, hchildren⟩ := hcovered.of_not_isToken hof id
    obtain ⟨hkind, hof⟩ := Treatment.of_eq_elseIf hof
    exact elseIf_quiet hx hof hspaced (hlast hkind) (fun y hy => h y hy (hchildren y hy)) hc
      hbase hblank
  | targets =>
    obtain ⟨hspaced, -, hchildren⟩ := hcovered.of_not_isToken hof id
    exact hinside fun c hc hbase hblank =>
      lowerTargets_quiet (fun y hy => h y hy (hchildren y hy)) hx.children head none none false
        hx.start hx.stop hc hbase hblank hspaced

theorem lower_quiet (hx : x.Fits s.text) (hmarked : x.Marked) (hclean : ¬ x.Faulty)
    (hcovered : x.Covered s.text) : Settled s x := by
  induction x using Concrete.induction with
  | mk head children ih =>
    have h : ∀ y ∈ children, y.Covered s.text → Settled s y := fun y hy hcovered =>
      ih y hy (hx.children y hy) (hmarked.children y hy) (fun hf => hclean (.deeper hy hf)) hcovered
    intro place role c hskip hsplits hc hbase hblank
    -- an `if` that is lowered in halves is gone into, so that its pieces cover it
    have hhalf : role = .leading ∨ role = .trailing →
        Concrete.Spaced s.text head.start children head.stop ∧ ∀ y ∈ children, Settled s y := by
      intro hrole
      have hof : Treatment.of s.text place ⟨head, children⟩ = .ok (.composite .ifStmt) := by
        rw [Treatment.of, hsplits hrole]
        rfl
      obtain ⟨hspaced, -, hchildren⟩ := hcovered.of_not_isToken hof id
      exact ⟨hspaced, fun y hy => h y hy (hchildren y hy)⟩
    have hplain : ∀ {role other : Role} {n : Nat}, role ≠ .leading → role ≠ .trailing →
        other ≠ .leading → other ≠ .trailing → ∀ (j : Nat) (z : Concrete), children[j]? = some z →
        Splits (if 0 + j < n then role else other) z := by
      intro role other n h1 h2 h3 h4 j z _ hrole
      split at hrole <;> simp_all
    cases role with
    | plain => exact lower_plain_quiet hx hmarked hclean hcovered h place hc hbase hblank
    | skip => exact absurd rfl hskip
    | keyword kind =>
      rw [lower]
      exact leaf_quiet (x := ⟨head, children⟩) hc hbase hx
        (Bool.eq_false_iff.2 (hclean ∘ hmarked.faulty_iff.1)) hblank kind
    | leading =>
      obtain ⟨hspaced, hchildren⟩ := hhalf (.inl rfl)
      rw [lower]
      exact lowerAll_quiet hchildren hx.children head none false hx.start (boundary_turn hx) hc hbase
        hblank (laid_take (Nat.zero_add _).symm hspaced)
        (hplain (by simp) (by simp) (by simp) (by simp))
    | trailing =>
      obtain ⟨hspaced, hchildren⟩ := hhalf (.inr rfl)
      rw [lower]
      exact lowerAll_quiet hchildren hx.children head none false (boundary_turn hx) hx.stop hc hbase
        hblank (laid_drop (Nat.zero_add _).symm hspaced)
        (hplain (by simp) (by simp) (by simp) (by simp))

end Lower

end PhpLint
