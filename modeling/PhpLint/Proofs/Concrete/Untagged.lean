import PhpLint.Proofs.Concrete.Origins

/-! One text lowered twice, from its front and from behind its open tag. Behind the tag the first
run lags one space behind the second, and neither makes anything until it meets the text in front
of a piece: there the first takes up the space with the white space, and from then on both do the
same. Only the offsets of errors tell them apart, by the length of what the second leaves out. -/

namespace PhpLint

/-- The error, reported by a run over the whole text. -/
def ParseError.later (base : Nat) (e : ParseError) : ParseError := ⟨e.message, e.offset + base⟩

def Source.whole (s : Source) : Source := ⟨s.text, 0⟩

/-- The piece and all below it begin no earlier than the base, and do not end before they begin. -/
inductive Concrete.Beyond (base : Nat) : Concrete → Prop
  | mk {head : Head} {children : List Concrete} : base ≤ head.start → head.start ≤ head.stop →
    (∀ c ∈ children, Beyond base c) → Beyond base ⟨head, children⟩

theorem Concrete.Beyond.base_le {base : Nat} {x : Concrete} (h : x.Beyond base) :
    base ≤ x.start := by
  obtain ⟨hbase, -, -⟩ := h
  exact hbase

theorem Concrete.Beyond.start_le_stop {base : Nat} {x : Concrete} (h : x.Beyond base) :
    x.start ≤ x.stop := by
  obtain ⟨-, hle, -⟩ := h
  exact hle

theorem Concrete.Beyond.children {base : Nat} {x : Concrete} (h : x.Beyond base) :
    ∀ c ∈ x.children, c.Beyond base := by
  obtain ⟨-, -, hchildren⟩ := h
  exact hchildren

namespace Green

/-- The nodes without one space at the front of the white space they begin with. -/
def unspaced? : List Green → Option (List Green)
  | .token .whitespace text :: gs =>
    match text.toList with
    | ' ' :: rest => some (if rest = [] then gs else .token .whitespace (.ofList rest) :: gs)
    | _ => none
  | _ => none

theorem unspaced?_cons (rest : List Char) (gs : List Green) :
    unspaced? (.token .whitespace (.ofList (' ' :: rest)) :: gs) =
      some (if rest = [] then gs else .token .whitespace (.ofList rest) :: gs) := by
  rw [unspaced?, String.toList_ofList]
  rfl

theorem unspaced?_append {gs hs : List Green} (h : unspaced? gs = some hs) (ks : List Green) :
    unspaced? (gs ++ ks) = some (hs ++ ks) := by
  unfold unspaced? at h
  split at h
  next text gs =>
    split at h
    next rest htext =>
      obtain rfl : text = .ofList (' ' :: rest) := by rw [← htext, String.ofList_toList]
      cases h
      rw [List.cons_append, unspaced?_cons]
      split <;> rfl
    next => cases h
  next => cases h

end Green

namespace Lower

open Green

variable {α β : Type} {s : Source} {c d : Cursor} {x : Concrete} {xs : List Concrete} {stop : Nat}

/-! Where the cursors of the two runs stand. -/

/-- Both cursors stand at one place. -/
structure Level (s : Source) (c d : Cursor) : Prop where
  pos_eq : c.pos = d.pos
  base_le : s.base ≤ d.pos
  rest_eq : c.rest = d.rest
  errors_eq : c.errors = d.errors.map (.later s.base)
  fault_eq : c.fault = d.fault

/-- The first cursor stands one space before the second, which has not moved. -/
structure Lags (s : Source) (c d : Cursor) : Prop where
  pos_eq : c.pos + 1 = s.base
  base_eq : d.pos = s.base
  rest_eq : c.rest = ' ' :: d.rest
  errors_eq : c.errors = d.errors.map (.later s.base)
  fault_eq : c.fault = d.fault

/-- What two runs made, and where this left them: nothing yet, or the same but for a space. -/
inductive UpToSpace (s : Source) : List Green × Cursor → List Green × Cursor → Prop
  | lags {c d : Cursor} : Lags s c d → UpToSpace s ([], c) ([], d)
  | level {gs hs : List Green} {c d : Cursor} : unspaced? gs = some hs → Level s c d →
    UpToSpace s (gs, c) (hs, d)

/-- From level cursors two runs make the same, and their cursors stay level. -/
def Together (s : Source) (m n : Lower α) : Prop :=
  ∀ c d, Level s c d → (m c).1 = (n d).1 ∧ Level s (m c).2 (n d).2

/-- The same, and from a lagging cursor the first run makes a space more at most. -/
structure Parallel (s : Source) (m n : Lower (List Green)) : Prop where
  together : Together s m n
  upToSpace : ∀ c d, Lags s c d → UpToSpace s (m c) (n d)

/-- The same, and the cursors are level afterwards, even if the first one lagged. -/
structure Joins (s : Source) (m n : Lower (List Green)) : Prop where
  together : Together s m n
  joins : ∀ c d, Lags s c d → unspaced? (m c).1 = some (n d).1 ∧ Level s (m c).2 (n d).2

/-- Nothing is made, and no cursor moves. -/
structure Unmoved (s : Source) (m n : Lower Unit) : Prop where
  together : Together s m n
  lags : ∀ c d, Lags s c d → Lags s (m c).2 (n d).2

variable {i j k l m n : Lower (List Green)}

namespace Together

theorem pure (a : α) : Together s (Pure.pure a) (Pure.pure a) := fun _ _ h => ⟨rfl, h⟩

theorem bind {m n : Lower α} {f g : α → Lower β} (h : Together s m n)
    (hf : ∀ a, Together s (f a) (g a)) : Together s (m >>= f) (n >>= g) := fun c d hcd => by
  obtain ⟨heq, hlevel⟩ := h c d hcd
  have hnext := hf (m c).1 _ _ hlevel
  change (f (m c).1 (m c).2).1 = (g (n d).1 (n d).2).1 ∧
    Level s (f (m c).1 (m c).2).2 (g (n d).1 (n d).2).2
  rwa [← heq]

end Together

namespace Joins

theorem parallel (h : Joins s m n) : Parallel s m n :=
  ⟨h.together, fun c d hcd => .level (h.joins c d hcd).1 (h.joins c d hcd).2⟩

/-- What is put behind the nodes made so far leaves the space in front alone. -/
theorem bind {f g : List Green → Lower (List Green)} (h : Joins s m n) (hk : Together s k l)
    (hf : ∀ gs c, f gs c = (gs ++ (k c).1, (k c).2))
    (hg : ∀ gs c, g gs c = (gs ++ (l c).1, (l c).2)) : Joins s (m >>= f) (n >>= g) := by
  refine ⟨h.together.bind fun gs c d hcd => ?_, fun c d hcd => ?_⟩
  · rw [hf, hg, (hk c d hcd).1]
    exact ⟨rfl, (hk c d hcd).2⟩
  · obtain ⟨hspace, hlevel⟩ := h.joins c d hcd
    change unspaced? (f (m c).1 (m c).2).1 = some (g (n d).1 (n d).2).1 ∧
      Level s (f (m c).1 (m c).2).2 (g (n d).1 (n d).2).2
    rw [hf, hg, (hk _ _ hlevel).1]
    exact ⟨unspaced?_append hspace _, (hk _ _ hlevel).2⟩

/-- A node of its own around two parts, behind the text before it. -/
theorem inside (h : Joins s m n) (hi : Together s i j) (hk : Together s k l) (kind : Kind) :
    Joins s (do
        let before ← m
        let inner ← i
        let after ← k
        return before ++ [.node kind (inner ++ after)])
      (do
        let before ← n
        let inner ← j
        let after ← l
        return before ++ [.node kind (inner ++ after)]) :=
  h.bind (hi.bind fun inner => hk.bind fun after => .pure [.node kind (inner ++ after)])
    (fun _ _ => rfl) fun _ _ => rfl

theorem wrapped (h : Joins s m n) (hk : Together s k l) (kind : Kind) :
    Joins s (do let before ← m; let inner ← k; return before ++ [.node kind inner])
      (do let before ← n; let inner ← l; return before ++ [.node kind inner]) :=
  h.bind (hk.bind fun inner => .pure [.node kind inner]) (fun _ _ => rfl) fun _ _ => rfl

/-- A node around the first part alone. -/
theorem followed (h : Joins s m n) (hi : Together s i j) (hk : Together s k l) (kind : Kind) :
    Joins s (do
        let before ← m
        let inner ← i
        let others ← k
        return before ++ .node kind inner :: others)
      (do
        let before ← n
        let inner ← j
        let others ← l
        return before ++ .node kind inner :: others) :=
  h.bind (hi.bind fun inner => hk.bind fun others => .pure (.node kind inner :: others))
    (fun _ _ => rfl) fun _ _ => rfl

end Joins

namespace UpToSpace

variable {r r' : List Green × Cursor}

theorem append (h : UpToSpace s r r') (hk : Parallel s k l) :
    UpToSpace s (r.1 ++ (k r.2).1, (k r.2).2) (r'.1 ++ (l r'.2).1, (l r'.2).2) := by
  cases h with
  | lags hcd => exact hk.upToSpace _ _ hcd
  | level hspace hlevel =>
    rw [(hk.together _ _ hlevel).1]
    exact .level (unspaced?_append hspace _) (hk.together _ _ hlevel).2

theorem joins (h : UpToSpace s r r') (hk : Joins s k l) :
    unspaced? (r.1 ++ (k r.2).1) = some (r'.1 ++ (l r'.2).1) ∧
      Level s (k r.2).2 (l r'.2).2 := by
  cases h with
  | lags hcd => exact hk.joins _ _ hcd
  | level hspace hlevel =>
    rw [(hk.together _ _ hlevel).1]
    exact ⟨unspaced?_append hspace _, (hk.together _ _ hlevel).2⟩

end UpToSpace

namespace Parallel

theorem nothing : Parallel s (pure []) (pure []) := ⟨.pure [], fun _ _ h => .lags h⟩

theorem append (h : Parallel s m n) (hk : Parallel s k l) :
    Parallel s (do let a ← m; let b ← k; return a ++ b)
      (do let a ← n; let b ← l; return a ++ b) :=
  ⟨h.together.bind fun _ => hk.together.bind fun _ => .pure _,
    fun c d hcd => (h.upToSpace c d hcd).append hk⟩

end Parallel

namespace Unmoved

variable {p q : Lower Unit}

theorem joins (h : Unmoved s p q) (hm : Joins s m n) : Joins s (do p; m) (do q; n) :=
  ⟨h.together.bind fun _ => hm.together, fun c d hcd => hm.joins _ _ (h.lags c d hcd)⟩

theorem parallel (h : Unmoved s p q) (hm : Parallel s m n) : Parallel s (do p; m) (do q; n) :=
  ⟨h.together.bind fun _ => hm.together, fun c d hcd => hm.upToSpace _ _ (h.lags c d hcd)⟩

end Unmoved

/-! Errors. -/

theorem errorAt_whole {message : String} {offset : Nat} (h : s.base ≤ offset) :
    errorAt s.whole message offset = (errorAt s message offset).later s.base := by
  rw [errorAt, errorAt, ParseError.later, Source.whole, Nat.sub_add_cancel h, Nat.sub_zero]

theorem errorsBelow_whole (hx : x.Beyond s.base) :
    errorsBelow s.whole x = (errorsBelow s x).map (.later s.base) := by
  induction x using Concrete.induction with
  | mk head children ih =>
    obtain ⟨hbase, -, hchildren⟩ := hx
    have hall : ∀ ys : List Concrete, (∀ y ∈ ys, y ∈ children) →
        errorsBelowAll s.whole ys = (errorsBelowAll s ys).map (.later s.base) := by
      intro ys
      induction ys with
      | nil => exact fun _ => rfl
      | cons y ys ihs =>
        intro hys
        rw [List.forall_mem_cons] at hys
        rw [errorsBelowAll, errorsBelowAll, List.map_append, ih y hys.1 (hchildren y hys.1),
          ihs hys.2]
    rw [errorsBelow, errorsBelow]
    split
    · exact congrArg (fun e => [e]) (errorAt_whole hbase)
    · split
      · exact congrArg (fun e => [e]) (errorAt_whole hbase)
      · split
        · exact hall children fun _ hy => hy
        · rfl

theorem gapErrors_whole {offset : Nat} (h : s.base ≤ offset) (rs : List (List Char)) :
    gapErrors s.whole offset rs = (gapErrors s offset rs).map (.later s.base) := by
  induction rs generalizing offset with
  | nil => rfl
  | cons run rs ih =>
    rw [gapErrors, gapErrors, List.map_append, ih (h.trans (Nat.le_add_right ..))]
    congr 1
    split
    · rfl
    · exact congrArg (fun e => [e]) (errorAt_whole h)

theorem unmoved_report {errors errors' : List ParseError}
    (h : errors = errors'.map (.later s.base)) : Unmoved s (report errors) (report errors') := by
  have heq : ∀ {es es' : List ParseError}, es = es'.map (.later s.base) →
      es ++ errors = (es' ++ errors').map (.later s.base) := fun hes => by
    rw [hes, h, List.map_append]
  exact ⟨fun _ _ h => ⟨rfl, h.pos_eq, h.base_le, h.rest_eq, heq h.errors_eq, h.fault_eq⟩,
    fun _ _ h => ⟨h.pos_eq, h.base_eq, h.rest_eq, heq h.errors_eq, h.fault_eq⟩⟩

theorem unmoved_note (fault : Token.Fault) : Unmoved s (note fault) (note fault) := by
  have heq : ∀ {c d : Cursor}, c.fault = d.fault →
      c.fault.or (some fault) = d.fault.or (some fault) := fun h => by rw [h]
  exact ⟨fun _ _ h => ⟨rfl, h.pos_eq, h.base_le, h.rest_eq, h.errors_eq, heq h.fault_eq⟩,
    fun _ _ h => ⟨h.pos_eq, h.base_eq, h.rest_eq, h.errors_eq, heq h.fault_eq⟩⟩

/-! The text between two pieces. -/

/-- A space before a text makes a run of its own or a longer first run. -/
theorem runs_space (text : List Char) : runs (' ' :: text) = [' '] :: runs text ∨
    ∃ run rest, runs text = run :: rest ∧ isBlankRun run = true ∧
      runs (' ' :: text) = (' ' :: run) :: rest := by
  cases text with
  | nil => exact .inl rfl
  | cons ch text =>
    cases hblank : Text.isBlank ch with
    | false =>
      refine .inl (List.splitBy_append_cons (l := [' ']) text ?_)
      intro first hfirst
      cases hfirst
      rw [hblank]
      decide
    | true =>
      -- The runs of the text, the first one a space longer, are again split where they should be.
      refine .inr ?_
      cases hruns : runs (ch :: text) with
      | nil => exact absurd (List.splitBy_eq_nil.1 hruns) (List.cons_ne_nil _ _)
      | cons run rest =>
        obtain ⟨hflat, hnil, hchains, hbetween⟩ := List.splitBy_eq_iff.1 hruns
        obtain ⟨hne, hnil⟩ : run ≠ [] ∧ [] ∉ rest := by
          simpa [eq_comm] using hnil
        obtain ⟨ch', run', rfl⟩ := List.exists_cons_of_ne_nil hne
        obtain rfl : ch = ch' := by simpa using congrArg List.head? hflat
        have hspace : Text.isBlank ' ' = true := by decide
        refine ⟨_, rest, rfl, hblank, List.splitBy_eq_iff.2 ⟨?_, by simpa using hnil, ?_, ?_⟩⟩
        · rw [hflat]
          rfl
        · rw [List.forall_mem_cons] at hchains ⊢
          refine ⟨.cons_cons ?_ hchains.1, hchains.2⟩
          rw [hblank, hspace]
          rfl
        · cases rest with
          | nil => exact .singleton _
          | cons next rest =>
            rw [List.isChain_cons_cons] at hbetween ⊢
            obtain ⟨⟨ha, hb, hlast⟩, hbetween⟩ := hbetween
            exact ⟨⟨List.cons_ne_nil _ _, hb, by rwa [List.getLast_cons ha]⟩, hbetween⟩

theorem unspaced?_runs_space (text : List Char) :
    unspaced? ((runs (' ' :: text)).map gapToken) = some ((runs text).map gapToken) := by
  rcases runs_space text with heq | ⟨run, rest, hruns, hblank, heq⟩
  · rw [heq, List.map_cons]
    exact unspaced?_cons [] _
  · have hne : run ≠ [] := List.ne_nil_of_mem_splitBy (hruns ▸ List.mem_cons_self)
    rw [heq, hruns, List.map_cons, List.map_cons, gapToken, gapToken, hblank, if_pos rfl]
    exact (unspaced?_cons run _).trans (congrArg some (if_neg hne))

theorem gapErrors_runs_space (offset : Nat) (text : List Char) :
    gapErrors s offset (runs (' ' :: text)) = gapErrors s (offset + 1) (runs text) := by
  rcases runs_space text with heq | ⟨run, rest, hruns, hblank, heq⟩
  · rw [heq]
    rfl
  · have hlength : offset + Text.byteLength (' ' :: run) = offset + 1 + Text.byteLength run := by
      rw [Nat.add_assoc]
      rfl
    rw [heq, hruns, gapErrors, gapErrors, hblank, hlength]
    rfl

/-- The gap up to an offset that is not before the cursor, even if there is nothing in it. -/
theorem gap_of_le (h : c.pos ≤ stop) : gap s stop c =
    let parts := Text.splitBytes (stop - c.pos) c.rest
    ((runs parts.1).map gapToken,
      ⟨stop, parts.2, c.errors ++ gapErrors s c.pos (runs parts.1), c.fault⟩) := by
  rw [gap_eq]
  split
  next hle =>
    obtain rfl := Nat.le_antisymm h hle
    rw [Nat.sub_self, Text.splitBytes]
    change _ = (_, (⟨c.pos, c.rest, c.errors ++ [], c.fault⟩ : Cursor))
    rw [List.append_nil]
    rfl
  next => rfl

theorem joins_gap (hstop : s.base ≤ stop) : Joins s (gap s.whole stop) (gap s stop) := by
  refine ⟨fun c d h => ?_, fun c d h => ?_⟩
  · rcases Nat.le_total stop d.pos with hle | hle
    · rw [gap_eq, gap_eq, if_pos hle, if_pos (h.pos_eq ▸ hle)]
      exact ⟨rfl, h⟩
    · rw [gap_of_le hle, gap_of_le (h.pos_eq ▸ hle), h.pos_eq, h.rest_eq]
      refine ⟨rfl, rfl, hstop, rfl, ?_, h.fault_eq⟩
      dsimp only
      rw [h.errors_eq, gapErrors_whole h.base_le, List.map_append]
  · obtain ⟨hpos, hbase, hrest, herrors, hfault⟩ := h
    have hparts : Text.splitBytes (stop - c.pos) c.rest =
        (' ' :: (Text.splitBytes (stop - d.pos) d.rest).1,
          (Text.splitBytes (stop - d.pos) d.rest).2) := by
      have hsize : ' '.utf8Size = 1 := rfl
      rw [hrest, show stop - c.pos = stop - d.pos + 1 by omega, Text.splitBytes, hsize,
        Nat.add_sub_cancel]
    rw [gap_of_le (by omega), gap_of_le (by omega), hparts]
    refine ⟨unspaced?_runs_space _, rfl, hstop, rfl, ?_, hfault⟩
    dsimp only
    rw [herrors, gapErrors_runs_space, hpos, ← hbase, gapErrors_whole hbase.ge, hbase,
      List.map_append]

/-! Single tokens. -/

/-- The token up to an offset, unless the cursor is there. -/
def tokenTo (kind : Kind) (stop : Nat) : Lower (List Green) := fun c =>
  if stop ≤ c.pos then ([], c) else ([.token kind (.ofList (cut stop c).1)], (cut stop c).2)

theorem together_tokenTo (kind : Kind) : Together s (tokenTo kind stop) (tokenTo kind stop) := by
  intro c d h
  rw [tokenTo, tokenTo, h.pos_eq]
  split
  next => exact ⟨rfl, h⟩
  next hlt =>
    have hparts : Text.splitBytes (stop - c.pos) c.rest =
        Text.splitBytes (stop - d.pos) d.rest := by rw [h.pos_eq, h.rest_eq]
    refine ⟨congrArg (fun parts => [Green.token kind (.ofList parts.1)]) hparts, rfl, ?_,
      congrArg Prod.snd hparts, h.errors_eq, h.fault_eq⟩
    exact h.base_le.trans (Nat.le_of_not_le hlt)

theorem leaf_eq_tokenTo (s : Source) (kind : Kind) (x : Concrete) : leaf s kind x = (do
    report (if x.head.faulty then errorsBelow s x else [])
    let before ← gap s x.start
    let token ← tokenTo kind x.stop
    return before ++ token) := by
  funext c
  have hreport : (if x.head.faulty = true then
      { c with errors := c.errors ++ errorsBelow s x } else c) =
        (report (if x.head.faulty then errorsBelow s x else []) c).2 := by
    split
    · rfl
    · change c = { c with errors := c.errors ++ [] }
      rw [List.append_nil]
  rw [leaf_eq, hreport]
  generalize report (if x.head.faulty then errorsBelow s x else []) = reporting
  change _ = ((gap s x.start (reporting c).2).1 ++
    (tokenTo kind x.stop (gap s x.start (reporting c).2).2).1,
      (tokenTo kind x.stop (gap s x.start (reporting c).2).2).2)
  dsimp only
  rw [tokenTo]
  split
  · exact Prod.ext (List.append_nil _).symm rfl
  · rfl

theorem joins_leaf (hx : x.Beyond s.base) (kind : Kind) :
    Joins s (leaf s.whole kind x) (leaf s kind x) := by
  have herrors : (if x.head.faulty then errorsBelow s.whole x else []) =
      (if x.head.faulty then errorsBelow s x else []).map (.later s.base) := by
    split
    · exact errorsBelow_whole hx
    · rfl
  rw [leaf_eq_tokenTo, leaf_eq_tokenTo]
  exact (unmoved_report herrors).joins ((joins_gap hx.base_le).bind (together_tokenTo kind)
    (fun _ _ => rfl) fun _ _ => rfl)

/-! Pieces. -/

/-- The children in their roles, each of them parallel in any role. -/
theorem parallel_lowerAll
    (h : ∀ x ∈ xs, ∀ place role, Parallel s (lower s.whole place role x) (lower s place role x))
    (parent : Head) (role : Nat → Role) (i : Nat) (prev : Option String) (named : Bool) :
    Parallel s (lowerAll s.whole parent role i prev named xs)
      (lowerAll s parent role i prev named xs) := by
  induction xs generalizing i prev named with
  | nil =>
    rw [lowerAll, lowerAll]
    exact .nothing
  | cons x xs ih =>
    rw [List.forall_mem_cons] at h
    rw [lowerAll, lowerAll]
    exact (h.1 _ (role i)).append (ih h.2 (i + 1) _ _)

theorem together_lowerTargets (hxs : ∀ x ∈ xs, s.base ≤ x.start)
    (h : ∀ x ∈ xs, ∀ place role, Parallel s (lower s.whole place role x) (lower s place role x))
    (parent : Head) (run : Option (List Green)) (prev : Option String) (named : Bool) :
    Together s (lowerTargets s.whole parent run prev named xs)
      (lowerTargets s parent run prev named xs) := by
  induction xs generalizing run prev named with
  | nil =>
    rw [lowerTargets, lowerTargets]
    exact .pure _
  | cons x xs ih =>
    rw [List.forall_mem_cons] at h hxs
    have hx := (h.1 (placeIn parent prev named x xs) .plain).together
    have hothers := fun run => ih hxs.2 h.2 run (some x.kind) (named || Treatment.isNameKind x.kind)
    rw [lowerTargets.eq_def, lowerTargets.eq_def]
    dsimp only
    split
    · exact hx.bind fun _ => (hothers none).bind fun _ => .pure _
    · cases run with
      | some gs => exact hx.bind fun _ => hothers _
      | none =>
        dsimp only
        split
        · exact hx.bind fun _ => (hothers none).bind fun _ => .pure _
        · exact (joins_gap hxs.1).together.bind fun _ => hx.bind fun _ =>
            (hothers _).bind fun _ => .pure _

theorem parallel_lower_plain {head : Head} {children : List Concrete}
    (hx : (⟨head, children⟩ : Concrete).Beyond s.base)
    (h : ∀ x ∈ children, ∀ place role,
      Parallel s (lower s.whole place role x) (lower s place role x)) (place : Place) :
    Parallel s (lower s.whole place .plain ⟨head, children⟩)
      (lower s place .plain ⟨head, children⟩) := by
  have hleaf := joins_leaf hx
  obtain ⟨hbase, hle, hchildren⟩ := hx
  have hbefore := joins_gap hbase
  have hafter := joins_gap (hbase.trans hle)
  have hall := fun roles => parallel_lowerAll h head roles 0 none false
  -- A piece that ends at the base begins there, so that both runs pass it over.
  have hempty : (head.start = head.stop ∨ head.stop ≤ s.whole.base) ↔
      (head.start = head.stop ∨ head.stop ≤ s.base) := by
    change _ ∨ head.stop ≤ 0 ↔ _
    omega
  have hone : ∀ message, [errorAt s.whole message head.start] =
      [errorAt s message head.start].map (.later s.base) := fun _ =>
    congrArg (fun e => [e]) (errorAt_whole hbase)
  rw [lower, lower]
  by_cases hmissing : head.missing = true
  · rw [if_pos hmissing, if_pos hmissing]
    exact (unmoved_report (hone _)).parallel .nothing
  rw [if_neg hmissing, if_neg hmissing]
  by_cases hnone : head.start = head.stop ∨ head.stop ≤ s.base
  · rw [if_pos hnone, if_pos (hempty.2 hnone)]
    exact .nothing
  rw [if_neg hnone, if_neg (mt hempty.1 hnone)]
  by_cases herror : head.error = true
  · rw [if_pos herror, if_pos herror]
    exact ((unmoved_report (hone _)).joins
      (hbefore.inside (hall _).together hafter.together .errorNode)).parallel
  rw [if_neg herror, if_neg herror, show s.whole.text = s.text from rfl]
  cases Treatment.of s.text place ⟨head, children⟩ with
  | error fault => exact ((unmoved_note fault).joins (hleaf .errorToken)).parallel
  | ok treatment =>
    cases treatment with
    | leaf kind => exact (hleaf kind).parallel
    | wrapped node token => exact (hbefore.wrapped (hleaf token).together node).parallel
    | composite kind =>
      exact (hbefore.inside (hall _).together hafter.together kind).parallel
    | transparent => exact (hall _).append hafter.parallel
    | keywordCall node keyword callee =>
      exact (hbefore.inside (hall _).together hafter.together node).parallel
    | elseIf body =>
      exact (hbefore.followed (hall _).together (hall _).together .elseIfClause).parallel
    | targets =>
      have htargets := together_lowerTargets (fun x hx => (hchildren x hx).base_le) h head none none
        false
      exact (hbefore.inside htargets hafter.together .arrayExpr).parallel

/-- Whatever becomes of a piece, the two runs make the same of it but for the space. -/
theorem parallel_lower (hx : x.Beyond s.base) (place : Place) (role : Role) :
    Parallel s (lower s.whole place role x) (lower s place role x) := by
  induction x using Concrete.induction generalizing place role with
  | mk head children ih =>
    have h : ∀ x ∈ children, ∀ place role,
        Parallel s (lower s.whole place role x) (lower s place role x) := fun x hmem =>
      ih x hmem (hx.children x hmem)
    cases role with
    | plain => exact parallel_lower_plain hx h place
    | skip =>
      rw [lower, lower]
      exact .nothing
    | keyword kind =>
      rw [lower, lower]
      exact (joins_leaf hx kind).parallel
    | leading | trailing =>
      rw [lower, lower]
      exact parallel_lowerAll h head _ 0 none false

end Lower

end PhpLint
