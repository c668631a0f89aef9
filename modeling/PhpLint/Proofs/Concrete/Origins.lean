import PhpLint.Proofs.Concrete.Kinds
import PhpLint.Proofs.Concrete.Leaves
import PhpLint.Proofs.Concrete.Reporting

/-! Where the tokens of a lowered tree come from. Pieces that stand one behind the other are never
cut: the cursor comes to a piece before it begins or after it has ended. So a token is a whole piece
at its own place, or it is text that no piece claims; and of the latter, what is not white space has
left an error. -/

namespace PhpLint

namespace Concrete

variable {x y : Concrete}

theorem Nested.within (h : x.Nested) (hy : y ∈ x.children) : x.start ≤ y.start ∧ y.stop ≤ x.stop := by
  obtain ⟨hin, -, -⟩ := h
  exact hin y hy

theorem Nested.pairwise (h : x.Nested) : x.children.Pairwise fun c d => c.stop ≤ d.start := by
  obtain ⟨-, hpairs, -⟩ := h
  exact hpairs

theorem Nested.stop_le_start (h : x.Nested) {z : Concrete} {i j : Nat}
    (hy : x.children[i]? = some y) (hz : x.children[j]? = some z) (hij : i < j) :
    y.stop ≤ z.start := by
  obtain ⟨hi, rfl⟩ := List.getElem?_eq_some_iff.1 hy
  obtain ⟨hj, rfl⟩ := List.getElem?_eq_some_iff.1 hz
  exact List.pairwise_iff_getElem.1 h.pairwise i j hi hj hij

theorem Nested.children (h : x.Nested) : ∀ c ∈ x.children, c.Nested := by
  obtain ⟨-, -, hchildren⟩ := h
  exact hchildren

end Concrete

namespace Lower

variable {s : Source} {c d e : Cursor} {gs hs : List Green} {stop : Nat} {x : Concrete}
  {xs : List Concrete}

/-- The token kinds that a piece can turn into. -/
inductive Gives (s : Source) (x : Concrete) : Kind → Prop
  | leaf {place : Place} {kind : Kind} :
    Treatment.of s.text place x = .ok (.leaf kind) → Gives s x kind
  | wrapped {place : Place} {node kind : Kind} :
    Treatment.of s.text place x = .ok (.wrapped node kind) → Gives s x kind
  | keyword {place : Place} {y : Concrete} {node kind : Kind} {callee : Nat} :
    Treatment.of s.text place y = .ok (.keywordCall node kind callee) →
    y.children[callee]? = some x → Gives s x kind

/-- A piece has a kind that suits it, or it is what a keyword call calls. -/
theorem Gives.suits {kind : Kind} (h : Gives s x kind) : Treatment.Suits s.text x kind ∨
    ((Treatment.spelling s.text x).toLower, kind) ∈
      [("isset", Kind.issetKw), ("empty", .emptyKw)] := by
  cases h with
  | leaf hof => exact .inl (Treatment.of_fair hof)
  | wrapped hof => exact .inl (Treatment.of_fair hof).2
  | keyword hof hx =>
    obtain ⟨-, y, word, hy, hword, hmem⟩ := Treatment.of_fair hof
    obtain rfl := Option.some.inj (hx.symm.trans hy)
    exact .inr (hword ▸ hmem)

/-- How a token comes to stand at a byte offset: as white space, as text that has been lost, or as
one of the given pieces, whole. -/
inductive Origin (s : Source) (P : Concrete → Prop) (lost : Prop) (pos : Nat) :
    Kind × String → Prop
  | blank {text : String} : (∀ ch ∈ text.toList, Text.isBlank ch = true) →
    Origin s P lost pos (.whitespace, text)
  | lost {text : String} : lost → Origin s P lost pos (.errorToken, text)
  | piece {x : Concrete} {kind : Kind} : P x → x.start = pos → Gives s x kind →
    Origin s P lost pos (kind, .ofList (Text.slice s.text x.start x.stop))

variable {P : Concrete → Prop}

theorem Origin.mono {p q : Prop} {pos : Nat} {w : Kind × String} (h : Origin s P p pos w)
    (hpq : p → q) : Origin s P q pos w := by
  cases h with
  | blank htext => exact .blank htext
  | lost hp => exact .lost (hpq hp)
  | piece hx hpos hkind => exact .piece hx hpos hkind

/-- An error node stands for something that was wrong, and a literal holds its token alone. -/
def Sorted (lost : Prop) (n : Kind × List Green) : Prop :=
  (n.1 = .errorNode → lost) ∧
    (n.1 = .literal → n.2 = [] ∨ ∃ kind text, n.2 = [.token kind text])

theorem sorted_of_ne {p : Prop} {kind : Kind} {gs : List Green} (herror : kind ≠ .errorNode)
    (hliteral : kind ≠ .literal) : Sorted p (kind, gs) :=
  ⟨fun hk => absurd hk herror, fun hk => absurd hk hliteral⟩

/-- The offset is not in the middle of a stretch of text. -/
def Clear (pos start stop : Nat) : Prop := pos ≤ start ∨ stop ≤ pos

/-- Something has been found wrong, or a text could not be scanned. -/
def Flawed (c : Cursor) : Prop := c.errors ≠ [] ∨ c.fault.isSome = true

theorem flawed_append_left (h : Flawed c) (errors : List ParseError) :
    Flawed { c with errors := c.errors ++ errors } :=
  h.imp_left fun hne => List.append_ne_nil_of_left_ne_nil hne _

theorem flawed_append_right {errors : List ParseError} (h : errors ≠ []) :
    Flawed { c with errors := c.errors ++ errors } :=
  .inl (List.append_ne_nil_of_right_ne_nil _ h)

/-- From `c` to `d` the nodes `gs` were made; no stretch of text with `Q` was stopped in. -/
structure Walk (s : Source) (P : Concrete → Prop) (Q : Nat → Nat → Prop) (c : Cursor)
    (gs : List Green) (d : Cursor) : Prop where
  aligned : Aligned s d
  pos_eq : d.pos = c.pos + Green.span (Green.leavesAll gs)
  clear : ∀ a b, Q a b → Clear c.pos a b → Clear d.pos a b
  flawed : Flawed c → Flawed d
  leaves : Green.Along (Origin s P (Flawed d)) c.pos (Green.leavesAll gs)
  nodes : ∀ n ∈ Green.nodesAll gs, Sorted (Flawed d) n

namespace Walk

variable {Q R : Nat → Nat → Prop}

theorem nil (hc : Aligned s c) (Q : Nat → Nat → Prop) : Walk s P Q c [] c :=
  ⟨hc, rfl, fun _ _ _ h => h, id, trivial, fun _ hn => by cases hn⟩

theorem append (h : Walk s P Q c gs d) (h' : Walk s P R d hs e) :
    Walk s P (fun a b => Q a b ∧ R a b) c (gs ++ hs) e where
  aligned := h'.aligned
  pos_eq := by
    rw [h'.pos_eq, h.pos_eq, Green.leavesAll_append, Green.span_append, Nat.add_assoc]
  clear := fun a b hq hc => h'.clear a b hq.2 (h.clear a b hq.1 hc)
  flawed := h'.flawed ∘ h.flawed
  leaves := by
    rw [Green.leavesAll_append, Green.along_append, ← h.pos_eq]
    exact ⟨h.leaves.mono fun _ _ ho => ho.mono h'.flawed, h'.leaves⟩
  nodes := by
    rw [Green.nodesAll_append]
    intro n hn
    rcases List.mem_append.1 hn with hn | hn
    · exact ⟨fun hk => h'.flawed ((h.nodes n hn).1 hk), (h.nodes n hn).2⟩
    · exact h'.nodes n hn

theorem mono (h : Walk s P Q c gs d) (hqr : ∀ a b, R a b → Q a b) : Walk s P R c gs d :=
  { h with clear := fun a b hr => h.clear a b (hqr a b hr) }

/-- A node around what was made. -/
theorem node {kind : Kind} (h : Walk s P Q c gs d) (hkind : Sorted (Flawed d) (kind, gs)) :
    Walk s P Q c [.node kind gs] d := by
  have hleaves : Green.leavesAll [.node kind gs] = Green.leavesAll gs := by
    rw [Green.leavesAll, Green.leaves, Green.leavesAll, List.append_nil]
  have hnodes : Green.nodesAll [.node kind gs] = (kind, gs) :: Green.nodesAll gs := by
    rw [Green.nodesAll, Green.nodes, Green.nodesAll, List.append_nil]
  exact ⟨h.aligned, hleaves ▸ h.pos_eq, h.clear, h.flawed, hleaves ▸ h.leaves,
    hnodes ▸ List.forall_mem_cons.2 ⟨hkind, h.nodes⟩⟩

/-- Errors reported on the way count for what comes after. -/
theorem of_report {errors : List ParseError}
    (h : Walk s P Q { c with errors := c.errors ++ errors } gs d) : Walk s P Q c gs d :=
  ⟨h.aligned, h.pos_eq, h.clear,
    fun hc => h.flawed (flawed_append_left hc errors), h.leaves, h.nodes⟩

end Walk

/-- So does a fault. -/
theorem Walk.of_note {Q : Nat → Nat → Prop} {fault : Token.Fault}
    (h : Walk s P Q { c with fault := c.fault.or (some fault) } gs d) : Walk s P Q c gs d :=
  ⟨h.aligned, h.pos_eq, h.clear, fun hc => h.flawed (hc.imp_right fun _ => by simp), h.leaves,
    h.nodes⟩

theorem Took.pos_eq {p : Prop} (hc : Aligned s c) (h : Took s c gs d p) :
    d.pos = c.pos + Green.span (Green.leavesAll gs) := by
  obtain ⟨before, htext, hpos⟩ := hc
  obtain ⟨before', htext', hpos'⟩ := h.aligned
  have hlen := congrArg Text.byteLength (htext.symm.trans htext')
  rw [h.rest_eq, ← List.append_assoc, Text.byteLength_append, Text.byteLength_append,
    Text.byteLength_append, ← Green.span_leavesAll] at hlen
  omega

/-! Text that no piece claims. -/

theorem isBlank_eq_of_mem_runs {text run : List Char} (hrun : run ∈ runs text) :
    ∀ ch ∈ run, Text.isBlank ch = isBlankRun run := by
  have hchain := List.isChain_of_mem_splitBy hrun
  cases run with
  | nil => simp
  | cons a run =>
    have htrans : IsTrans Char fun a b => (Text.isBlank a == Text.isBlank b) = true :=
      ⟨fun a b c hab hbc => by rw [beq_iff_eq] at *; exact hab.trans hbc⟩
    rw [List.isChain_iff_pairwise, List.pairwise_cons] at hchain
    rintro ch (_ | ⟨_, hch⟩)
    · simp [isBlankRun]
    · exact (beq_iff_eq.1 (hchain.1 ch hch)).symm

theorem gapErrors_ne_nil {offset : Nat} {rs : List (List Char)} {run : List Char} (hrun : run ∈ rs)
    (hsolid : isBlankRun run = false) : gapErrors s offset rs ≠ [] := by
  induction rs generalizing offset with
  | nil => cases hrun
  | cons r rs ih =>
    rw [gapErrors, Ne, List.append_eq_nil_iff]
    rcases List.mem_cons.1 hrun with rfl | hrun
    · simp [hsolid]
    · exact fun h => ih hrun h.2

theorem pos_gap (s : Source) (stop : Nat) (c : Cursor) :
    (gap s stop c).2.pos = max c.pos stop := by
  rw [gap_eq]
  split
  next hle => exact (Nat.max_eq_left hle).symm
  next hle => exact (Nat.max_eq_right (Nat.le_of_not_le hle)).symm

theorem leavesAll_map_gapToken (rs : List (List Char)) :
    Green.leavesAll (rs.map gapToken) = rs.map fun run =>
      (if isBlankRun run then Kind.whitespace else .errorToken, String.ofList run) := by
  induction rs with
  | nil => rfl
  | cons run rs ih => rw [List.map_cons, Green.leavesAll, ih]; rfl

theorem nodesAll_map_gapToken (rs : List (List Char)) : Green.nodesAll (rs.map gapToken) = [] := by
  induction rs with
  | nil => rfl
  | cons run rs ih => rw [List.map_cons, Green.nodesAll, ih]; rfl

/-- A stretch of text that an offset does not fall into. -/
theorem gap_walk (hstop : Text.Boundary s.text stop) (hc : Aligned s c) :
    Walk s P (fun a b => stop ≤ a ∨ b ≤ stop) c (gap s stop c).1 (gap s stop c).2 := by
  have htook := gap_lossless hstop c hc
  refine ⟨htook.aligned, htook.pos_eq hc, fun a b hq hclear => ?_, ?_, ?_, ?_⟩
  · rw [Clear, pos_gap]
    rcases hq with hq | hq <;> rcases hclear with hclear | hclear <;> omega
  all_goals
    rw [gap_eq]
    split
  · exact id
  · exact fun hc => flawed_append_left hc _
  · trivial
  · rw [leavesAll_map_gapToken]
    refine Green.along_of_forall fun w hw pos => ?_
    obtain ⟨run, hrun, rfl⟩ := List.mem_map.1 hw
    by_cases hblank : isBlankRun run = true
    · rw [if_pos hblank]
      refine .blank fun ch hch => ?_
      rw [String.toList_ofList] at hch
      rw [isBlank_eq_of_mem_runs hrun ch hch, hblank]
    · rw [if_neg hblank]
      exact .lost (flawed_append_right (gapErrors_ne_nil hrun (Bool.eq_false_iff.2 hblank)))
  · simp [Green.nodesAll]
  · simp [nodesAll_map_gapToken]

/-- What is cut off is the text up to the offset. -/
theorem cut_eq_slice (hc : Aligned s c) (hstop : Text.Boundary s.text stop) (hle : c.pos ≤ stop) :
    (cut stop c).1 = Text.slice s.text c.pos stop := by
  obtain ⟨piece, rest, hcut, hrest, ⟨front, hfront, hend⟩, -⟩ := exists_cut hc hstop hle
  obtain ⟨before, htext, hpos⟩ := hc
  have hsplit : before ++ piece = front := by
    rw [htext, hrest, ← List.append_assoc] at hfront
    exact List.append_cancel_right hfront
  have hend : stop = Text.byteLength before + Text.byteLength piece := by
    rw [← Text.byteLength_append, hsplit]
    exact hend.symm
  rw [hcut, htext, hrest, ← hpos, hend, Text.slice_byteLength]

/-- A token cut off at the cursor, where a piece begins. -/
theorem token_walk (hc : Aligned s c) (hx : P x) (hstop : Text.Boundary s.text x.stop)
    (hpos : c.pos = x.start) (hlt : x.start < x.stop) {kind : Kind}
    (hkind : Gives s x kind ∨ kind = .errorToken ∧ Flawed c) :
    Walk s P (fun a b => x.stop ≤ a ∨ b ≤ x.start) c [.token kind (.ofList (cut x.stop c).1)]
      (cut x.stop c).2 := by
  have htook := token_took hc hstop (hpos ▸ hlt) kind
  refine ⟨htook.aligned, htook.pos_eq hc, fun a b hq hclear => ?_, id, ?_, ?_⟩
  · change Clear x.stop a b
    rw [Clear] at *
    omega
  · rw [cut_eq_slice hc hstop (hpos ▸ hlt.le), hpos]
    refine ⟨?_, trivial⟩
    rcases hkind with hkind | ⟨rfl, hflawed⟩
    · exact .piece hx rfl hkind
    · exact .lost hflawed
  · simp [Green.nodesAll, Green.nodes]

/-- A piece as one token: the text in front of it, and what is left of its own. -/
theorem leaf_eq (s : Source) (kind : Kind) (x : Concrete) (c : Cursor) :
    leaf s kind x c =
      let c := if x.head.faulty then { c with errors := c.errors ++ errorsBelow s x } else c
      let before := gap s x.start c
      if x.stop ≤ before.2.pos then before
      else (before.1 ++ [.token kind (.ofList (cut x.stop before.2).1)], (cut x.stop before.2).2) := by
  have htail : ∀ c, (do
      let before ← gap s x.start
      if x.stop ≤ (← get).pos then return before
      return before ++ [.token kind (.ofList (← cut x.stop))] : Lower (List Green)) c =
      if x.stop ≤ (gap s x.start c).2.pos then gap s x.start c
      else ((gap s x.start c).1 ++ [.token kind (.ofList (cut x.stop (gap s x.start c).2).1)],
        (cut x.stop (gap s x.start c).2).2) := by
    intro c
    change (if x.stop ≤ (gap s x.start c).2.pos then _ else _ : Lower _) _ = _
    split <;> rfl
  rw [leaf]
  by_cases hfaulty : x.head.faulty = true
  · simp only [if_pos hfaulty]
    exact htail { c with errors := c.errors ++ errorsBelow s x }
  · simp only [if_neg hfaulty]
    exact htail c

theorem leaf_walk (hc : Aligned s c) (hx : x.Fits s.text) (hP : P x) {kind : Kind}
    (hkind : Gives s x kind ∨ kind = .errorToken ∧ Flawed c) (hclear : Clear c.pos x.start x.stop) :
    Walk s P (fun a b => x.stop ≤ a ∨ b ≤ x.start) c (leaf s kind x c).1 (leaf s kind x c).2 := by
  have hbody : ∀ c, Aligned s c → Clear c.pos x.start x.stop →
      (Gives s x kind ∨ kind = .errorToken ∧ Flawed c) →
      let before := gap s x.start c
      let both := if x.stop ≤ before.2.pos then before else
        (before.1 ++ [.token kind (.ofList (cut x.stop before.2).1)], (cut x.stop before.2).2)
      Walk s P (fun a b => x.stop ≤ a ∨ b ≤ x.start) c both.1 both.2 := by
    intro c hc hclear hkind
    have hgap := gap_walk (P := P) hx.start hc
    have hweak : ∀ a b, x.stop ≤ a ∨ b ≤ x.start → x.start ≤ a ∨ b ≤ x.start := fun a b hab =>
      hab.imp_left hx.start_le_stop.trans
    dsimp only
    split
    next => exact hgap.mono hweak
    next hpast =>
      have hpos : (gap s x.start c).2.pos = x.start := by
        rw [pos_gap] at hpast ⊢
        rw [Clear] at hclear
        omega
      have htoken := token_walk hgap.aligned hP hx.stop hpos (by omega)
        (hkind.imp_right fun h => ⟨h.1, hgap.flawed h.2⟩)
      exact (hgap.append htoken).mono fun a b hab => ⟨hweak a b hab, hab⟩
  rw [leaf_eq]
  split
  · exact (hbody { c with errors := c.errors ++ errorsBelow s x } hc hclear
      (hkind.imp_right fun h => ⟨h.1, flawed_append_left h.2 _⟩)).of_report
  · exact hbody c hc hclear hkind

/-- Where no text is left in front of a piece, its token stands alone. -/
theorem leaf_of_start_le {kind : Kind} (h : x.start ≤ c.pos) :
    (leaf s kind x c).1 = [] ∨ ∃ text, (leaf s kind x c).1 = [.token kind text] := by
  rw [leaf_eq]
  generalize hd : (if x.head.faulty = true then { c with errors := c.errors ++ errorsBelow s x }
    else c) = d
  have hgap : gap s x.start d = ([], d) := by
    rw [gap_eq, if_pos]
    rw [← hd]
    split <;> exact h
  dsimp only
  rw [hgap]
  split
  · exact .inl rfl
  · exact .inr ⟨_, rfl⟩

/-- The pieces that a piece in a role stands for. -/
def rolePieces : Role → Concrete → List Concrete
  | .plain, x | .keyword _, x => [x]
  | .skip, _ => []
  | .leading, x => x.children.take (leadingCount x.children)
  | .trailing, x => x.children.drop (leadingCount x.children)

variable {y : Concrete} {role : Role}

theorem within_of_mem_rolePieces (hn : x.Nested) (hy : y ∈ rolePieces role x) :
    x.start ≤ y.start ∧ y.stop ≤ x.stop := by
  cases role with
  | plain | keyword =>
    obtain rfl := List.mem_singleton.1 hy
    exact ⟨Nat.le_refl _, Nat.le_refl _⟩
  | skip => cases hy
  | leading => exact hn.within (List.mem_of_mem_take hy)
  | trailing => exact hn.within (List.mem_of_mem_drop hy)

/-- The offset is not in the middle of what a piece in a role stands for. -/
def RoleClear (pos : Nat) (role : Role) (x : Concrete) : Prop :=
  ∀ y ∈ rolePieces role x, Clear pos y.start y.stop

/-- A piece in a role has nothing of the stretch of text. -/
def RoleApart (role : Role) (x : Concrete) (a b : Nat) : Prop :=
  ∀ y ∈ rolePieces role x, y.stop ≤ a ∨ b ≤ y.start

theorem roleApart_of_apart (hn : x.Nested) {a b : Nat} (h : x.stop ≤ a ∨ b ≤ x.start) :
    RoleApart role x a b := fun y hy => by
  have := within_of_mem_rolePieces hn hy
  omega

theorem roleClear_of_clear (hn : x.Nested) {pos : Nat} (h : Clear pos x.start x.stop) :
    RoleClear pos role x := fun y hy => by
  have := within_of_mem_rolePieces hn hy
  rw [Clear] at *
  omega

/-- However a piece is lowered that is not cut by the cursor, its nodes have whole pieces in them. -/
def Walked (s : Source) (P : Concrete → Prop) (x : Concrete) : Prop :=
  ∀ place role c, Aligned s c → RoleClear c.pos role x →
    (∀ kind, role = .keyword kind → Gives s x kind) →
    Walk s P (RoleApart role x) c (lower s place role x c).1 (lower s place role x c).2

theorem lowerAll_walk (h : ∀ x ∈ xs, Walked s P x) (hnested : ∀ x ∈ xs, x.Nested)
    (hpairs : xs.Pairwise fun x y => x.stop ≤ y.start) (parent : Head) (role : Nat → Role) (i : Nat)
    (prev : Option String) (named : Bool) (hc : Aligned s c)
    (hclear : ∀ (j : Nat) (x : Concrete), xs[j]? = some x → RoleClear c.pos (role (i + j)) x)
    (hkeyword : ∀ (j : Nat) (x : Concrete) (kind : Kind), xs[j]? = some x →
      role (i + j) = .keyword kind → Gives s x kind) :
    Walk s P (fun a b => ∀ (j : Nat) (x : Concrete), xs[j]? = some x → RoleApart (role (i + j)) x a b)
      c (lowerAll s parent role i prev named xs c).1
      (lowerAll s parent role i prev named xs c).2 := by
  induction xs generalizing i prev named c with
  | nil =>
    rw [lowerAll]
    exact .nil hc _
  | cons x xs ih =>
    rw [List.forall_mem_cons] at h hnested
    rw [List.pairwise_cons] at hpairs
    have hx := h.1 (placeIn parent prev named x xs) (role i) c hc (hclear 0 x rfl)
      fun kind => hkeyword 0 x kind rfl
    have hshift : ∀ j, i + 1 + j = i + (j + 1) := fun j => by omega
    have hxs := ih h.2 hnested.2 hpairs.2 (i + 1) (some x.kind)
      (named || Treatment.isNameKind x.kind) hx.aligned
      (fun j y hy z hz => by
        rw [hshift] at hz
        have hle := hpairs.1 y (List.mem_of_getElem? hy)
        have hin := within_of_mem_rolePieces (hnested.2 y (List.mem_of_getElem? hy)) hz
        refine hx.clear _ _ (roleApart_of_apart hnested.1 (.inl (hle.trans hin.1))) ?_
        exact hclear (j + 1) y hy z hz)
      fun j y kind hy hrole => hkeyword (j + 1) y kind hy (by rwa [hshift] at hrole)
    rw [lowerAll]
    refine (hx.append hxs).mono fun a b hab => ⟨hab 0 x rfl, fun j y hy => ?_⟩
    rw [hshift]
    exact hab (j + 1) y hy

theorem lowerAll_plain_walk (h : ∀ x ∈ xs, Walked s P x) (hnested : ∀ x ∈ xs, x.Nested)
    (hpairs : xs.Pairwise fun x y => x.stop ≤ y.start) (parent : Head) (hc : Aligned s c)
    (hclear : ∀ x ∈ xs, Clear c.pos x.start x.stop) :
    Walk s P (fun a b => ∀ x ∈ xs, x.stop ≤ a ∨ b ≤ x.start) c
      (lowerAll s parent (fun _ => .plain) 0 none false xs c).1
      (lowerAll s parent (fun _ => .plain) 0 none false xs c).2 := by
  refine (lowerAll_walk h hnested hpairs parent _ 0 none false hc ?_ ?_).mono ?_
  · exact fun j x hx => roleClear_of_clear (hnested x (List.mem_of_getElem? hx))
      (hclear x (List.mem_of_getElem? hx))
  · exact fun j x kind _ hrole => by cases hrole
  · exact fun a b hab j x hx => roleApart_of_apart (hnested x (List.mem_of_getElem? hx))
      (hab x (List.mem_of_getElem? hx))

theorem targetElement_walk {d : Cursor} {Q : Nat → Nat → Prop} {run : Option (List Green)}
    (h : Walk s P Q c (run.getD []) d) : Walk s P Q c (targetElement run) d := by
  cases run with
  | none => exact h
  | some gs => exact h.node (sorted_of_ne (by decide) (by decide))

theorem lowerTargets_walk (h : ∀ x ∈ xs, Walked s P x) (hfits : ∀ x ∈ xs, x.Fits s.text)
    (hnested : ∀ x ∈ xs, x.Nested) (hpairs : xs.Pairwise fun x y => x.stop ≤ y.start)
    (parent : Head) (run : Option (List Green)) (prev : Option String) (named : Bool)
    {d : Cursor} {Q : Nat → Nat → Prop} (hrun : Walk s P Q c (run.getD []) d)
    (hclear : ∀ x ∈ xs, Clear d.pos x.start x.stop) :
    Walk s P (fun a b => Q a b ∧ ∀ x ∈ xs, x.stop ≤ a ∨ b ≤ x.start) c
      (lowerTargets s parent run prev named xs d).1
      (lowerTargets s parent run prev named xs d).2 := by
  induction xs generalizing run prev named c d Q with
  | nil =>
    rw [lowerTargets]
    exact (targetElement_walk hrun).mono fun a b hab => hab.1
  | cons x xs ih =>
    rw [List.forall_mem_cons] at h hfits hnested hclear
    rw [List.pairwise_cons] at hpairs
    -- whatever comes next is left alone by this piece, and by the text in front of it
    have hnext : ∀ {e : Cursor} {gs : List Green} {R : Nat → Nat → Prop}, Walk s P R d gs e →
        (∀ y ∈ xs, R y.start y.stop) → ∀ y ∈ xs, Clear e.pos y.start y.stop :=
      fun hwalk hR y hy => hwalk.clear _ _ (hR y hy) (hclear.2 y hy)
    have hapart : ∀ y ∈ xs, RoleApart .plain x y.start y.stop := fun y hy =>
      roleApart_of_apart hnested.1 (.inl (hpairs.1 y hy))
    have hplain : ∀ {d : Cursor}, Aligned s d → Clear d.pos x.start x.stop →
        Walk s P (RoleApart .plain x) d
          (lower s (placeIn parent prev named x xs) .plain x d).1
          (lower s (placeIn parent prev named x xs) .plain x d).2 := fun hd hclear =>
      h.1 _ .plain _ hd (roleClear_of_clear hnested.1 hclear) fun _ hrole => by cases hrole
    have hsplit : ∀ a b, (∀ y ∈ x :: xs, y.stop ≤ a ∨ b ≤ y.start) →
        RoleApart .plain x a b ∧ ∀ y ∈ xs, y.stop ≤ a ∨ b ≤ y.start := fun a b hab =>
      ⟨roleApart_of_apart hnested.1 (hab x List.mem_cons_self),
        fun y hy => hab y (List.mem_cons_of_mem x hy)⟩
    rw [lowerTargets.eq_def]
    dsimp only
    by_cases hdelimiter : isDelimiter x = true
    · rw [if_pos hdelimiter]
      have h1 := hplain hrun.aligned hclear.1
      have h2 := ih h.2 hfits.2 hnested.2 hpairs.2 none (some x.kind)
        (named || Treatment.isNameKind x.kind) (.nil h1.aligned fun _ _ => True) (hnext h1 hapart)
      refine (((targetElement_walk hrun).append h1).append h2).mono fun a b hab => ?_
      exact ⟨⟨hab.1, (hsplit a b hab.2).1⟩, trivial, (hsplit a b hab.2).2⟩
    · rw [if_neg hdelimiter]
      cases run with
      | some gs =>
        have h1 := hplain hrun.aligned hclear.1
        refine (ih h.2 hfits.2 hnested.2 hpairs.2 (some _) _ _ (hrun.append h1)
          (hnext h1 hapart)).mono fun a b hab => ?_
        exact ⟨⟨hab.1, (hsplit a b hab.2).1⟩, (hsplit a b hab.2).2⟩
      | none =>
        by_cases hcomment : x.kind = "comment"
        · simp only [if_pos hcomment]
          have h1 := hplain hrun.aligned hclear.1
          have h2 := ih h.2 hfits.2 hnested.2 hpairs.2 none (some x.kind)
            (named || Treatment.isNameKind x.kind) (.nil h1.aligned fun _ _ => True)
            (hnext h1 hapart)
          refine ((hrun.append h1).append h2).mono fun a b hab => ?_
          exact ⟨⟨hab.1, (hsplit a b hab.2).1⟩, trivial, (hsplit a b hab.2).2⟩
        · simp only [if_neg hcomment]
          have hgap := gap_walk (P := P) hfits.1.start hrun.aligned
          have h1 := hplain hgap.aligned (hgap.clear _ _ (.inl (Nat.le_refl _)) hclear.1)
          have hboth := hgap.append h1
          have hle := hfits.1.start_le_stop
          have h2 := ih h.2 hfits.2 hnested.2 hpairs.2 (some _) (some x.kind)
            (named || Treatment.isNameKind x.kind) h1
            (hnext hboth fun y hy => ⟨.inl (hle.trans (hpairs.1 y hy)), hapart y hy⟩)
          refine (hrun.append (hgap.append h2)).mono fun a b hab => ?_
          have hx := hab.2 x List.mem_cons_self
          exact ⟨hab.1, hx.imp_left hle.trans, hsplit a b hab.2⟩

/-- A stretch of text on one side of a piece. -/
def Beside (x : Concrete) (a b : Nat) : Prop := x.stop ≤ a ∨ b ≤ x.start

/-- Whatever is done about the children of a piece while the cursor cuts none of them. -/
def Minds (s : Source) (P : Concrete → Prop) (x : Concrete) (m : Lower (List Green)) : Prop :=
  ∀ c, Aligned s c → (∀ y ∈ x.children, Clear c.pos y.start y.stop) →
    Walk s P (Beside x) c (m c).1 (m c).2

theorem gap_start_walk (hx : x.Fits s.text) (hc : Aligned s c) :
    Walk s P (Beside x) c (gap s x.start c).1 (gap s x.start c).2 :=
  (gap_walk hx.start hc).mono fun _ _ hab => hab.imp_left hx.start_le_stop.trans

theorem gap_stop_walk (hx : x.Fits s.text) (hc : Aligned s c) :
    Walk s P (Beside x) c (gap s x.stop c).1 (gap s x.stop c).2 :=
  (gap_walk hx.stop hc).mono fun _ _ hab => hab.imp_right (·.trans hx.start_le_stop)

/-- Going up to the beginning of a piece leaves the cursor clear of its children. -/
theorem clear_gap_start (hnested : x.Nested)
    (hclear : ∀ y ∈ x.children, Clear c.pos y.start y.stop) :
    ∀ y ∈ x.children, Clear (gap s x.start c).2.pos y.start y.stop := fun y hy => by
  have hin := hnested.within hy
  have hy := hclear y hy
  rw [Clear] at *
  rw [pos_gap]
  omega

/-- A node of its own for a piece, around its children's nodes. -/
theorem Minds.inside {m : Lower (List Green)} (hm : Minds s P x m) (hx : x.Fits s.text)
    (hnested : x.Nested) {kind : Kind} (hliteral : kind ≠ .literal) (hc : Aligned s c)
    (herror : kind = .errorNode → Flawed c)
    (hclear : ∀ y ∈ x.children, Clear c.pos y.start y.stop) :
    let made : Lower (List Green) := do
      let before ← gap s x.start
      let inner ← m
      let after ← gap s x.stop
      return before ++ [.node kind (inner ++ after)]
    Walk s P (Beside x) c (made c).1 (made c).2 := by
  have hbefore := gap_start_walk (P := P) hx hc
  have hinner := hm _ hbefore.aligned (clear_gap_start hnested hclear)
  have hafter := gap_stop_walk (P := P) hx hinner.aligned
  have hsorted : Sorted (Flawed (gap s x.stop (m (gap s x.start c).2).2).2)
      (kind, (m (gap s x.start c).2).1 ++ (gap s x.stop (m (gap s x.start c).2).2).1) :=
    ⟨fun hk => hafter.flawed (hinner.flawed (hbefore.flawed (herror hk))),
      fun hk => absurd hk hliteral⟩
  exact (hbefore.append ((hinner.append hafter).node hsorted)).mono fun a b hab => ⟨hab, hab, hab⟩

theorem minds_lowerAll_plain (hnested : x.Nested) (h : ∀ y ∈ x.children, Walked s P y) :
    Minds s P x (lowerAll s x.head (fun _ => .plain) 0 none false x.children) := fun c hc hclear =>
  (lowerAll_plain_walk h hnested.children hnested.pairwise x.head hc hclear).mono
    fun a b hab y hy => by
      have := hnested.within hy
      rw [Beside] at hab
      omega

theorem minds_lowerAll (hnested : x.Nested) (h : ∀ y ∈ x.children, Walked s P y)
    (role : Nat → Role) (hkeyword : ∀ (j : Nat) (y : Concrete) (kind : Kind),
      x.children[j]? = some y → role j = .keyword kind → Gives s y kind) :
    Minds s P x (lowerAll s x.head role 0 none false x.children) := fun c hc hclear => by
  refine (lowerAll_walk h hnested.children hnested.pairwise x.head role 0 none false hc ?_ ?_).mono
    fun a b hab j y hy => ?_
  · exact fun j y hy => roleClear_of_clear (hnested.children y (List.mem_of_getElem? hy))
      (hclear y (List.mem_of_getElem? hy))
  · exact fun j y kind hy hrole => hkeyword j y kind hy (by rwa [Nat.zero_add] at hrole)
  · have hmem := List.mem_of_getElem? hy
    have := hnested.within hmem
    rw [Beside] at hab
    exact roleApart_of_apart (hnested.children y hmem) (by omega)

theorem minds_lowerTargets (hx : x.Fits s.text) (hnested : x.Nested)
    (h : ∀ y ∈ x.children, Walked s P y) :
    Minds s P x (lowerTargets s x.head none none false x.children) := fun c hc hclear =>
  (lowerTargets_walk h hx.children hnested.children hnested.pairwise x.head none none false
    (.nil hc fun _ _ => True) hclear).mono fun a b hab => ⟨trivial, fun y hy => by
      have := hnested.within hy
      rw [Beside] at hab
      omega⟩

/-- The two halves of an `if` behind an `else`, with what stands around it. -/
theorem elseIf_walk (hx : x.Fits s.text) (hnested : x.Nested) (h : ∀ y ∈ x.children, Walked s P y)
    (body : Nat) (hc : Aligned s c) (hclear : ∀ y ∈ x.children, Clear c.pos y.start y.stop) :
    let made : Lower (List Green) := do
      let before ← gap s x.start
      let inner ← lowerAll s x.head (fun i => if i = body then .leading else .plain) 0 none false
        x.children
      let others ← lowerAll s x.head (fun i => if i = body then .trailing else .skip) 0 none false
        x.children
      return before ++ .node .elseIfClause inner :: others
    Walk s P (Beside x) c (made c).1 (made c).2 := by
  have hbefore := gap_start_walk (P := P) hx hc
  have hclear' := clear_gap_start (s := s) hnested hclear
  have hnested' : ∀ {j : Nat} {y : Concrete}, x.children[j]? = some y → y.Nested := fun hy =>
    hnested.children _ (List.mem_of_getElem? hy)
  have hbeside : ∀ {j : Nat} {y : Concrete} {a b : Nat}, x.children[j]? = some y → Beside x a b →
      y.stop ≤ a ∨ b ≤ y.start := fun hy hab => by
    have := hnested.within (List.mem_of_getElem? hy)
    rw [Beside] at hab
    omega
  have hinner := lowerAll_walk h hnested.children hnested.pairwise x.head
    (fun i => if i = body then .leading else .plain) 0 none false hbefore.aligned
    (fun j y hy => roleClear_of_clear (hnested' hy) (hclear' y (List.mem_of_getElem? hy)))
    fun j y kind _ hrole => by split at hrole <;> cases hrole
  have hothers := lowerAll_walk h hnested.children hnested.pairwise x.head
    (fun i => if i = body then .trailing else .skip) 0 none false hinner.aligned
    (fun j y hy z hz => by
      rw [Nat.zero_add] at hz
      split at hz
      next hj =>
        -- the alternatives stand behind the first half and beside every other child
        have hzy := within_of_mem_rolePieces (hnested' hy) hz
        refine hinner.clear _ _ (fun i w hw => ?_) ?_
        · rw [Nat.zero_add]
          split
          next hi =>
            obtain rfl : w = y := Option.some.inj (hw.symm.trans (hi ▸ hj ▸ hy))
            have hpairs := (hnested' hy).pairwise
            rw [← List.take_append_drop (leadingCount w.children) w.children,
              List.pairwise_append] at hpairs
            exact fun v hv => .inl (hpairs.2.2 v hv z hz)
          next hi =>
            refine roleApart_of_apart (hnested' hw) ?_
            rcases Nat.lt_or_gt_of_ne (hj ▸ hi) with hlt | hlt
            · exact .inl ((hnested.stop_le_start hw hy hlt).trans hzy.1)
            · exact .inr (hzy.2.trans (hnested.stop_le_start hy hw hlt))
        · have := hclear' y (List.mem_of_getElem? hy)
          rw [Clear] at *
          omega
      next => cases hz)
    fun j y kind _ hrole => by split at hrole <;> cases hrole
  refine (hbefore.append ((hinner.node (sorted_of_ne (by decide) (by decide))).append
    hothers)).mono fun a b hab => ⟨hab, fun j y hy => ?_, fun j y hy => ?_⟩
  · exact roleApart_of_apart (hnested' hy) (hbeside hy hab)
  · exact roleApart_of_apart (hnested' hy) (hbeside hy hab)

/-- A piece that is an error keeps what it holds in an error node. -/
theorem lower_error_walk (hx : x.Fits s.text) (hnested : x.Nested)
    (h : ∀ y ∈ x.children, Walked s P y) (place : Place) (herror : x.head.error = true)
    (hc : Aligned s c) (hchild : ∀ y ∈ x.children, Clear c.pos y.start y.stop) :
    Walk s P (Beside x) c (lower s place .plain x c).1 (lower s place .plain x c).2 := by
  have hreported : ∀ errors, Aligned s { c with errors := c.errors ++ errors } := fun _ => hc
  have hall := minds_lowerAll_plain hnested h
  obtain ⟨head, children⟩ := x
  rw [lower]
  by_cases hmissing : head.missing = true
  · rw [if_pos hmissing]
    exact (Walk.nil (hreported [expected s head]) _).of_report
  by_cases hempty : head.start = head.stop ∨ head.stop ≤ s.base
  · rw [if_neg hmissing, if_pos hempty]
    exact .nil hc _
  rw [if_neg hmissing, if_neg hempty]
  change head.error = true at herror
  rw [if_pos herror]
  exact (hall.inside hx hnested (by decide) (hreported _)
    (fun _ => flawed_append_right (List.cons_ne_nil _ _)) hchild).of_report

theorem lower_plain_walk (hx : x.Fits s.text) (hnested : x.Nested) (hPx : P x)
    (h : ∀ y ∈ x.children, Walked s P y) (place : Place)
    (hc : Aligned s c) (hclear : Clear c.pos x.start x.stop) :
    Walk s P (Beside x) c (lower s place .plain x c).1 (lower s place .plain x c).2 := by
  have hchild : ∀ y ∈ x.children, Clear c.pos y.start y.stop := fun y hy => by
    have := hnested.within hy
    rw [Clear] at *
    omega
  by_cases herror : x.head.error = true
  · exact lower_error_walk hx hnested h place herror hc hchild
  have hreported : ∀ errors, Aligned s { c with errors := c.errors ++ errors } := fun _ => hc
  have hall := minds_lowerAll_plain hnested h
  obtain ⟨head, children⟩ := x
  rw [lower]
  by_cases hmissing : head.missing = true
  · rw [if_pos hmissing]
    exact (Walk.nil (hreported [expected s head]) _).of_report
  by_cases hempty : head.start = head.stop ∨ head.stop ≤ s.base
  · rw [if_neg hmissing, if_pos hempty]
    exact .nil hc _
  rw [if_neg hmissing, if_neg hempty]
  change ¬ head.error = true at herror
  rw [if_neg herror]
  cases hof : Treatment.of s.text place ⟨head, children⟩ with
  | error fault =>
    have hnoted : Aligned s { c with fault := c.fault.or (some fault) } := hc
    exact (leaf_walk hnoted hx hPx (.inr ⟨rfl, .inr (by simp)⟩) hclear).of_note
  | ok treatment =>
  have hfair := Treatment.of_fair hof
  cases treatment with
  | leaf kind => exact leaf_walk hc hx hPx (.inl (.leaf hof)) hclear
  | wrapped node token =>
    have hbefore := gap_start_walk (P := P) hx hc
    have hclear' : Clear (gap s head.start c).2.pos head.start head.stop :=
      (gap_walk (P := P) hx.start hc).clear _ _ (.inl (Nat.le_refl _)) hclear
    have hleaf := leaf_walk hbefore.aligned hx hPx (.inl (.wrapped hof)) hclear'
    refine (hbefore.append (hleaf.node ⟨fun hk => absurd hk hfair.1, fun _ => ?_⟩)).mono
      fun a b hab => ⟨hab, hab⟩
    refine (leaf_of_start_le (le_pos_gap s head.start c)).imp_right fun hleaf => ?_
    obtain ⟨text, htext⟩ := hleaf
    exact ⟨_, text, htext⟩
  | composite kind =>
    exact hall.inside hx hnested hfair.2 hc (fun hk => absurd hk hfair.1) hchild
  | transparent =>
    have hinner := hall c hc hchild
    exact (hinner.append (gap_stop_walk hx hinner.aligned)).mono fun a b hab => ⟨hab, hab⟩
  | keywordCall node keyword callee =>
    refine (minds_lowerAll hnested h _ fun j y kind hy hrole => ?_).inside hx hnested hfair.1.2 hc
      (fun hk => absurd hk hfair.1.1) hchild
    split at hrole
    next hj =>
      cases hrole
      exact .keyword hof (hj ▸ hy)
    next => cases hrole
  | elseIf body => exact elseIf_walk hx hnested h body hc hchild
  | targets =>
    exact (minds_lowerTargets hx hnested h).inside hx hnested (by decide) hc
      (fun hk => by cases hk) hchild

theorem mem_leading {head : Head} {j : Nat} {z : Concrete} (hy : xs[j]? = some y)
    (hz : z ∈ rolePieces (if 0 + j < leadingCount xs then .plain else .skip) y) :
    z ∈ rolePieces .leading ⟨head, xs⟩ := by
  rw [Nat.zero_add] at hz
  split at hz
  next hj =>
    obtain rfl := List.mem_singleton.1 hz
    rw [← List.getElem?_take_of_lt hj] at hy
    exact List.mem_of_getElem? hy
  next => cases hz

theorem mem_trailing {head : Head} {j : Nat} {z : Concrete} (hy : xs[j]? = some y)
    (hz : z ∈ rolePieces (if 0 + j < leadingCount xs then .skip else .plain) y) :
    z ∈ rolePieces .trailing ⟨head, xs⟩ := by
  rw [Nat.zero_add] at hz
  split at hz
  next => cases hz
  next hj =>
    obtain rfl := List.mem_singleton.1 hz
    rw [← Nat.add_sub_cancel' (Nat.le_of_not_lt hj), ← List.getElem?_drop] at hy
    exact List.mem_of_getElem? hy

/-- Every piece of a nested tree is lowered to whole pieces. -/
theorem lower_walk (hP : ∀ x, P x → ∀ y ∈ x.children, P y) (hx : x.Fits s.text)
    (hnested : x.Nested) (hPx : P x) : Walked s P x := by
  induction x using Concrete.induction with
  | mk head children ih =>
    have h : ∀ y ∈ children, Walked s P y := fun y hy =>
      ih y hy (hx.children y hy) (hnested.children y hy) (hP _ hPx y hy)
    intro place role c hc hclear hkeyword
    have hself : ∀ {a b : Nat}, (∀ y ∈ [(⟨head, children⟩ : Concrete)], y.stop ≤ a ∨ b ≤ y.start) →
        Beside ⟨head, children⟩ a b := fun hab => hab _ List.mem_cons_self
    cases role with
    | plain =>
      exact (lower_plain_walk hx hnested hPx h place hc (hclear _ List.mem_cons_self)).mono
        fun a b hab => hself hab
    | skip =>
      rw [lower]
      exact .nil hc _
    | keyword kind =>
      rw [lower]
      exact (leaf_walk hc hx hPx (.inl (hkeyword kind rfl)) (hclear _ List.mem_cons_self)).mono
        fun a b hab => hself hab
    | leading =>
      rw [lower]
      exact (lowerAll_walk h hnested.children hnested.pairwise head _ 0 none false hc
        (fun j y hy z hz => hclear z (mem_leading hy hz))
        fun j y kind _ hrole => by split at hrole <;> cases hrole).mono
          fun a b hab j y hy z hz => hab z (mem_leading hy hz)
    | trailing =>
      rw [lower]
      exact (lowerAll_walk h hnested.children hnested.pairwise head _ 0 none false hc
        (fun j y hy z hz => hclear z (mem_trailing hy hz))
        fun j y kind _ hrole => by split at hrole <;> cases hrole).mono
          fun a b hab j y hy z hz => hab z (mem_trailing hy hz)

end Lower

namespace Concrete

/-- The piece is the given one or stands somewhere below it. -/
inductive Below (root : Concrete) : Concrete → Prop
  | root : Below root root
  | child {x y : Concrete} : Below root x → y ∈ x.children → Below root y

/-- A tree of a text as a grammar makes it: the pieces lie in the text, one behind the other, below a
program or an error, and none reaches over the base. -/
structure Proper (text : List Char) (base : Nat) (root : Concrete) : Prop where
  fits : root.Fits text
  nested : root.Nested
  kind : root.kind = "program" ∨ root.head.error = true
  beside : ∀ c ∈ root.children, base ≤ c.start ∨ c.stop ≤ base

end Concrete

end PhpLint
