import PhpLint.Tree.Builder

/-! Building steps that keep to themselves. A sequence that closes what it opens, and nothing else,
and goes back to no marks but its own does the same wherever it runs: it adds the same slots and
gives the node it runs in the same children. So a node may be opened before its first children are
built or put around them afterwards. -/

namespace PhpLint

/-- What a sequence of steps has done so far: the number of nodes it has opened, the numbers of
those still open with the innermost first, and for each mark the number of the node it was taken in.
Number 0 is the node that the sequence runs in. -/
structure Scope where
  opened : Nat
  inner : List Nat
  marks : List (String × Nat)
  deriving DecidableEq, Inhabited, Repr

namespace Scope

def empty : Scope := ⟨0, [], []⟩

def innermost (s : Scope) : Nat := s.inner.headD 0

def enter (s : Scope) : Scope :=
  { s with opened := s.opened + 1, inner := (s.opened + 1) :: s.inner }

/-- Only what was opened on the way is closed, and only marks taken on the way are gone back to,
each while the node it was taken in is innermost. -/
def step? (s : Scope) : BuildEvent → Option Scope
  | .start _ => some s.enter
  | .token .. => some s
  | .finish => match s.inner with
    | [] => none
    | _ :: inner => some { s with inner }
  | .mark name => some { s with marks := (name, s.innermost) :: s.marks }
  | .startAt name _ => if s.marks.lookup name = some s.innermost then some s.enter else none

/-- The sequence can be run through and leaves nothing open. -/
def closes (events : List BuildEvent) : Bool :=
  (events.foldlM step? empty).any (·.inner.isEmpty)

end Scope

namespace Builder

variable {f : Frame} {rest inner : List Frame} {cs : List NodeId} {slots : Array Slot}
  {last : Option NodeId} {s s' : Scope} {events : List BuildEvent}

/-- Open nodes on top of `f`, which has got the children `cs` in the meantime. -/
def stack (f : Frame) (rest inner : List Frame) (cs : List NodeId) : List Frame :=
  inner ++ { f with children := f.children ++ cs } :: rest

theorem exists_hand (inner : List Frame) (cs : List NodeId) (id : NodeId) :
    ∃ inner' cs', inner'.length = inner.length ∧
      ∀ f rest, hand (stack f rest inner cs) id = stack f rest inner' cs' := by
  cases inner with
  | nil =>
    refine ⟨[], cs ++ [id], rfl, fun f rest => ?_⟩
    rw [stack, stack, List.nil_append, List.nil_append, hand, List.append_assoc]
  | cons g inner =>
    exact ⟨{ g with children := g.children ++ [id] } :: inner, cs, rfl, fun _ _ => rfl⟩

/-- A node on top of others is closed into the one below it, so that it is never the last. -/
theorem exists_finishNode (g : Frame) (inner : List Frame) (cs : List NodeId)
    (slots : Array Slot) :
    ∃ slots' inner' cs', inner'.length = inner.length ∧ ∀ f rest last,
      finishNode ⟨slots, stack f rest (g :: inner) cs, last⟩ =
        ⟨slots', stack f rest inner' cs', last⟩ := by
  obtain ⟨inner', cs', hlength, hhand⟩ := exists_hand inner cs slots.size
  refine ⟨Slots.alloc slots g.kind none g.children true, inner', cs', hlength,
    fun f rest last => ?_⟩
  have hbelow : (stack f rest inner cs).isEmpty = false := by
    rw [List.isEmpty_eq_false_iff]
    exact List.append_ne_nil_of_right_ne_nil _ (List.cons_ne_nil _ _)
  rw [← hhand, finishNode, stack, List.cons_append]
  dsimp only
  rw [← stack, hbelow]
  rfl

/-- The mark that a sequence has as `mark`, counted in `f` if that is where it was taken. -/
def shifted (f : Frame) (inner : List Frame) (mark : Nat) : Nat :=
  if inner = [] then f.children.length + mark else mark

theorem exists_checkpoint (inner : List Frame) (cs : List NodeId) :
    ∃ mark, ∀ f rest slots last,
      checkpoint ⟨slots, stack f rest inner cs, last⟩ = shifted f inner mark := by
  cases inner with
  | nil =>
    refine ⟨cs.length, fun f rest slots last => ?_⟩
    rw [shifted, if_pos rfl, ← List.length_append]
    rfl
  | cons g inner =>
    refine ⟨g.children.length, fun f rest slots last => ?_⟩
    rw [shifted, if_neg (List.cons_ne_nil g inner)]
    rfl

theorem exists_startAt (inner : List Frame) (cs : List NodeId) (mark : Nat) (kind : Kind) :
    ∃ inner' cs', inner'.length = inner.length + 1 ∧ ∀ f rest slots last,
      startAt ⟨slots, stack f rest inner cs, last⟩ (shifted f inner mark) kind =
        ⟨slots, stack f rest inner' cs', last⟩ := by
  cases inner with
  | nil =>
    refine ⟨[⟨kind, cs.drop mark⟩], cs.take mark, rfl, fun f rest slots last => ?_⟩
    rw [shifted, if_pos rfl, startAt, stack, List.nil_append]
    dsimp only
    rw [List.drop_length_add_append, List.take_length_add_append]
    rfl
  | cons g inner =>
    refine ⟨⟨kind, g.children.drop mark⟩ :: { g with children := g.children.take mark } :: inner,
      cs, rfl, fun f rest slots last => ?_⟩
    rw [shifted, if_neg (List.cons_ne_nil g inner)]
    rfl

/-- The marks of a sequence, as they were taken on top of `f` and as they would have been taken on
top of a node without children. -/
def Agree (f : Frame) (scope : List (String × Nat)) (own marks : Marks) : Prop :=
  ∀ name node, scope.lookup name = some node → ∃ mark, own.lookup name = some mark ∧
    marks.lookup name = some (if node = 0 then f.children.length + mark else mark)

theorem Agree.cons {node mark : Nat} {scope : List (String × Nat)} {own marks : Marks}
    (h : Agree f scope own marks) (name : String) :
    Agree f ((name, node) :: scope) ((name, mark) :: own)
      ((name, if node = 0 then f.children.length + mark else mark) :: marks) := by
  intro name' node' hlookup
  rw [List.lookup_cons] at hlookup ⊢
  rw [List.lookup_cons]
  cases hname : name' == name with
  | true =>
    rw [hname] at hlookup
    obtain rfl := Option.some.inj hlookup
    exact ⟨mark, rfl, rfl⟩
  | false =>
    rw [hname] at hlookup
    exact h name' node' hlookup

/-- The open nodes of a sequence are those it has opened, none of which is number 0. -/
structure Tracks (s : Scope) (inner : List Frame) : Prop where
  length_eq : inner.length = s.inner.length
  pos : ∀ node ∈ s.inner, node ≠ 0

theorem Tracks.shifted_eq (h : Tracks s inner) (f : Frame) (mark : Nat) :
    shifted f inner mark = if s.innermost = 0 then f.children.length + mark else mark := by
  have hzero : inner = [] ↔ s.innermost = 0 := by
    rw [← List.length_eq_zero_iff, h.length_eq, Scope.innermost]
    cases hs : s.inner with
    | nil => simp
    | cons node nodes => simpa using h.pos node (hs ▸ List.mem_cons_self)
  simp only [shifted, hzero]

theorem Tracks.enter {inner' : List Frame} (h : Tracks s inner)
    (hlength : inner'.length = inner.length + 1) : Tracks s.enter inner' :=
  ⟨hlength.trans (congrArg (· + 1) h.length_eq),
    List.forall_mem_cons.2 ⟨Nat.succ_ne_zero _, h.pos⟩⟩

/-- What a step does on top of a node is the same whatever that node is, whatever is below it and
whatever marks were taken before. -/
theorem exists_step (own : Marks) {e : BuildEvent} (h : Tracks s inner) (hs : s.step? e = some s')
    (slots : Array Slot) (cs : List NodeId) :
    ∃ slots' inner' cs' own', Tracks s' inner' ∧ ∀ f rest last marks,
      Agree f s.marks own marks → ∃ marks',
        step (⟨slots, stack f rest inner cs, last⟩, marks) e =
          (⟨slots', stack f rest inner' cs', last⟩, marks') ∧ Agree f s'.marks own' marks' := by
  cases e with
  | start kind =>
    obtain rfl := Option.some.inj hs
    exact ⟨slots, ⟨kind, []⟩ :: inner, cs, own, h.enter rfl, fun f rest last marks hmarks =>
      ⟨marks, rfl, hmarks⟩⟩
  | token kind text =>
    obtain rfl := Option.some.inj hs
    obtain ⟨inner', cs', hlength, hhand⟩ := exists_hand inner cs slots.size
    refine ⟨Slots.alloc slots kind (some text) [] true, inner', cs', own,
      ⟨hlength.trans h.length_eq, h.pos⟩, fun f rest last marks hmarks => ⟨marks, ?_, hmarks⟩⟩
    rw [step, token, hhand]
  | finish =>
    rw [Scope.step?] at hs
    split at hs
    next => cases hs
    next node nodes hnodes =>
      obtain rfl := Option.some.inj hs
      obtain ⟨hlength, hpos⟩ := h
      rw [hnodes] at hlength hpos
      rw [List.forall_mem_cons] at hpos
      obtain ⟨g, inner, rfl⟩ := List.exists_cons_of_length_eq_add_one hlength
      obtain ⟨slots', inner', cs', hlength', hfinish⟩ := exists_finishNode g inner cs slots
      refine ⟨slots', inner', cs', own, ⟨hlength'.trans (Nat.succ.inj hlength), hpos.2⟩,
        fun f rest last marks hmarks => ⟨marks, ?_, hmarks⟩⟩
      rw [step, hfinish]
  | mark name =>
    obtain rfl := Option.some.inj hs
    obtain ⟨mark, hcheckpoint⟩ := exists_checkpoint inner cs
    refine ⟨slots, inner, cs, (name, mark) :: own, ⟨h.length_eq, h.pos⟩,
      fun f rest last marks hmarks => ⟨_, rfl, ?_⟩⟩
    rw [hcheckpoint, h.shifted_eq]
    exact hmarks.cons name
  | startAt name kind =>
    rw [Scope.step?] at hs
    split at hs
    next hlookup =>
      obtain rfl := Option.some.inj hs
      obtain ⟨inner', cs', hlength, hstart⟩ :=
        exists_startAt inner cs ((own.lookup name).getD 0) kind
      refine ⟨slots, inner', cs', own, h.enter hlength,
        fun f rest last marks hmarks => ⟨marks, ?_, hmarks⟩⟩
      obtain ⟨mark, hown, hmark⟩ := hmarks name _ hlookup
      rw [hown, Option.getD_some] at hstart
      rw [step, hmark, ← h.shifted_eq]
      dsimp only
      rw [hstart]
    next => cases hs

theorem exists_steps (own : Marks) (h : Tracks s inner)
    (hs : events.foldlM Scope.step? s = some s') (slots : Array Slot) (cs : List NodeId) :
    ∃ slots' inner' cs', Tracks s' inner' ∧ ∀ f rest last marks,
      Agree f s.marks own marks →
      (events.foldl step (⟨slots, stack f rest inner cs, last⟩, marks)).1 =
        ⟨slots', stack f rest inner' cs', last⟩ := by
  induction events generalizing s inner cs slots own with
  | nil =>
    obtain rfl := Option.some.inj hs
    exact ⟨slots, inner, cs, h, fun _ _ _ _ _ => rfl⟩
  | cons e events ih =>
    rw [List.foldlM_cons] at hs
    obtain ⟨s₁, hstep, hrest⟩ := Option.bind_eq_some_iff.1 hs
    obtain ⟨slots₁, inner₁, cs₁, own₁, h₁, hfirst⟩ := exists_step own h hstep slots cs
    obtain ⟨slots', inner', cs', h', hlater⟩ := ih own₁ h₁ hrest slots₁ cs₁
    refine ⟨slots', inner', cs', h', fun f rest last marks hmarks => ?_⟩
    obtain ⟨marks₁, heq, hmarks₁⟩ := hfirst f rest last marks hmarks
    rw [List.foldl_cons, heq]
    exact hlater f rest last marks₁ hmarks₁

/-- A sequence that closes adds slots and gives the node it runs in some children: the same in every
node, on top of whatever else is open. -/
theorem exists_children_of_closes (h : Scope.closes events = true) (slots : Array Slot) :
    ∃ slots' cs, ∀ f rest last marks,
      (events.foldl step (⟨slots, f :: rest, last⟩, marks)).1 =
        ⟨slots', { f with children := f.children ++ cs } :: rest, last⟩ := by
  rw [Scope.closes, Option.any_eq_true] at h
  obtain ⟨s', hs, hclosed⟩ := h
  have hstart : Tracks .empty [] := ⟨rfl, by simp [Scope.empty]⟩
  obtain ⟨slots', inner', cs, htracks, hsteps⟩ := exists_steps [] hstart hs slots []
  have hinner : inner' = [] := by
    rw [← List.length_eq_zero_iff, htracks.length_eq, List.isEmpty_iff.1 hclosed, List.length_nil]
  refine ⟨slots', cs, fun f rest last marks => ?_⟩
  have hrun := hsteps f rest last marks (by simp [Agree, Scope.empty])
  rwa [hinner, stack, stack, List.nil_append, List.nil_append, List.append_nil] at hrun

/-- A node put around what was built since a mark is the node that is opened at the mark: with the
same steps in it, before it is put around and after, the builder comes to the same state. -/
theorem wrap_eq_open (b : Builder) (hopen : b.frames ≠ []) (kind : Kind)
    {before after : List BuildEvent} (hbefore : Scope.closes before = true)
    (hafter : Scope.closes after = true) (m₁ m₂ m₃ m₄ : Marks) :
    (after.foldl step ((before.foldl step (b, m₁)).1.startAt b.checkpoint kind, m₂)).1.finishNode =
      (after.foldl step ((before.foldl step (b.start kind, m₃)).1, m₄)).1.finishNode := by
  obtain ⟨slots, frames, last⟩ := b
  obtain ⟨f, rest, rfl⟩ := List.exists_cons_of_ne_nil hopen
  obtain ⟨slots₁, cs, hfirst⟩ := exists_children_of_closes hbefore slots
  have hwrapped : startAt ⟨slots₁, { f with children := f.children ++ cs } :: rest, last⟩
      (checkpoint ⟨slots, f :: rest, last⟩) kind = ⟨slots₁, ⟨kind, cs⟩ :: f :: rest, last⟩ := by
    rw [startAt, checkpoint]
    dsimp only
    rw [List.drop_left, List.take_left]
  obtain ⟨slots₂, ds, hlater⟩ := exists_children_of_closes hafter slots₁
  rw [hfirst f rest last m₁, hwrapped, start, hfirst ⟨kind, []⟩ (f :: rest) last m₃, hlater, hlater,
    List.nil_append]

/-- A file with a space in it is open. -/
def openFile : Builder := (run [.start .sourceFile, .token .whitespace " "]).1

/-- `$a ` in parentheses, and an empty node from a mark that these have left without children. -/
def leftEvents : List BuildEvent :=
  [.mark "a", .token .varName "$a", .token .whitespace " ", .mark "b", .startAt "a" .parenExpr,
    .finish, .startAt "b" .literal, .finish]

/-- `=1` with a node put around the number. -/
def rightEvents : List BuildEvent :=
  [.token .eq "=", .mark "a", .token .intNumber "1", .startAt "a" .literal, .finish]

/-- The assignment is the second child of the file, opened at once or put around its left side. -/
theorem wrap_eq_open_assignment :
    (rightEvents.foldl step ((leftEvents.foldl step (openFile, [])).1.startAt
        openFile.checkpoint .assignExpr, [])).1.finishNode =
      (rightEvents.foldl step ((leftEvents.foldl step (openFile.start .assignExpr, [])).1,
        [])).1.finishNode ∧
      (rightEvents.foldl step ((leftEvents.foldl step (openFile.start .assignExpr, [])).1,
        [])).1.finishNode.frames = [⟨.sourceFile, [0, 8]⟩] :=
  ⟨wrap_eq_open openFile (by decide) .assignExpr (by decide) (by decide) [] [] [] [], by decide⟩

end Builder

end PhpLint
