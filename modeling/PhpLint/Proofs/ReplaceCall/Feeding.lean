import Mathlib.Data.List.Permutation
import PhpLint.Proofs.ReplaceCall.Cascading
import PhpLint.Proofs.Tree.Building

/-! A result handed on in a variable, against a result handed on directly. The two are the same
where both assignments are plain, both calls take their arguments by place, and the later call
mentions the variable as its subject only. That much is not asked by the rule. -/

namespace PhpLint

namespace Node

/-- The operator is `=` alone: no compound assignment and none by reference. -/
def IsPlainAssignment (n : Node) : Prop :=
  (n.solidChildren.filter (·.isToken)).map (·.kind) = [.eq]

/-- Arguments are told apart by their places: none has a label and none is spread. -/
def IsPositional (call : Node) : Prop :=
  ∀ list, call.argList? = some list → ∀ c ∈ list.solidChildren, c.isToken = true →
    c.kind ∈ [Kind.lParen, .comma, .rParen]

def Mentions (n : Node) (name : String) : Prop := n.variableReferences name ≠ []

variable {n c : Node} {name : String}

theorem mentions_iff : n.Mentions name ↔ ∃ m ∈ n.preorder, m.variableName? = some name := by
  simp [Mentions, variableReferences, List.filter_eq_nil_iff]

theorem mentions_of_variableName? (h : n.variableName? = some name) : n.Mentions name :=
  mentions_iff.2 ⟨n, n.mem_preorder_self, h⟩

theorem Mentions.of_child (h : c.Mentions name) (hc : c ∈ n.children) : n.Mentions name := by
  obtain ⟨m, hm, hname⟩ := mentions_iff.1 h
  exact mentions_iff.2 ⟨m, mem_preorder_of_child hc hm, hname⟩

theorem Mentions.of_argument (h : c.Mentions name) (hc : c ∈ n.arguments) : n.Mentions name := by
  obtain ⟨list, hlist, hc⟩ := exists_child_of_mem_arguments hc
  exact (h.of_child hc).of_child hlist

theorem sizeOf_lt_of_mem_arguments (h : c ∈ n.arguments) : sizeOf c < sizeOf n := by
  obtain ⟨list, hlist, hc⟩ := exists_child_of_mem_arguments h
  exact (sizeOf_lt_of_mem hc).trans (sizeOf_lt_of_mem hlist)

end Node

namespace ReplaceCall

theorem exists_value_of_valueOf? {n call : Node} (h : valueOf? n = some call)
    (hkind : n.kind = .assignExpr) :
    isReplaceCall call ∧ ∃ value, n.value? = some value ∧ value.unparenthesized = call := by
  obtain ⟨hvalue, hcall⟩ := Option.filter_eq_some_iff.1 h
  simp only [hkind, Option.map_eq_some_iff] at hvalue
  exact ⟨hcall, hvalue⟩

/-- What expressions amount to, given what the variables hold. -/
structure Evaluation (Value : Type) where
  /-- Evaluating changes nothing and depends on the mentioned variables only. -/
  Pure : Node → Prop
  value : Node → (String → Value) → Value
  replace : Value → Value → Value → Value
  /-- What the variables hold behind an assignment. -/
  assign : Node → (String → Value) → String → Value
  value_congr : ∀ {n : Node} {σ τ : String → Value}, Pure n →
    (∀ name, n.Mentions name → σ name = τ name) → value n σ = value n τ
  value_variable : ∀ {n : Node} {name : String} (σ : String → Value),
    n.variableName? = some name → value n σ = σ name
  pure_call : ∀ {call : Node} {parts : ReplaceCall}, isReplaceCall call → call.IsPositional →
    ofCall? call = some parts → (∀ n ∈ call.arguments, Pure n) → Pure call
  value_call : ∀ {call : Node} {parts : ReplaceCall} (σ : String → Value), isReplaceCall call →
    call.IsPositional → ofCall? call = some parts → (∀ n ∈ call.arguments, Pure n) →
    value call σ =
      replace (value parts.search σ) (value parts.replacement σ) (value parts.subject σ)
  assign_plain : ∀ {n target right : Node} {name : String} (σ : String → Value),
    n.IsPlainAssignment → n.target? = some target →
    target.unparenthesized.variableName? = some name → n.value? = some right →
    Pure right.unparenthesized →
    assign n σ = Function.update σ name (value right.unparenthesized σ)

namespace Evaluation

variable {Value : Type}

/-- The later call with the earlier one for its subject. -/
def fed (e : Evaluation Value) (later earlier : ReplaceCall) (σ : String → Value) : Value :=
  e.replace (e.value later.search σ) (e.value later.replacement σ)
    (e.replace (e.value earlier.search σ) (e.value earlier.replacement σ)
      (e.value earlier.subject σ))

end Evaluation

end ReplaceCall

namespace CascadeReplace

open ReplaceCall

variable {t : Tree} {node : NodeId} {Value : Type}

namespace Cascade

/-- What has to hold besides for the earlier statement to be dropped. -/
structure Mergeable (c : Cascade t node) : Prop where
  plain_earlier : c.assignment.IsPlainAssignment
  plain_later : t.kind node = .assignExpr → (t.node node).IsPlainAssignment
  not_in_search : ¬ c.later.search.Mentions c.name
  not_in_replacement : ¬ c.later.replacement.Mentions c.name
  positional_earlier : c.earlierCall.IsPositional
  positional_later : c.laterCall.IsPositional

theorem assign_earlier (c : Cascade t node) (hm : c.Mergeable) (e : Evaluation Value)
    (hpure : ∀ n ∈ c.earlierCall.arguments, e.Pure n) (σ : String → Value) :
    e.assign c.assignment σ = Function.update σ c.name
      (e.replace (e.value c.earlier.search σ) (e.value c.earlier.replacement σ)
        (e.value c.earlier.subject σ)) := by
  obtain ⟨hcall, right, hright, hunwrapped⟩ :=
    exists_value_of_valueOf? c.earlierCall_eq c.assignment_kind
  have hcarrier : c.carrier.unparenthesized.variableName? = some c.name := by
    rw [Node.unparenthesized_of_variableName? c.carrier_name]
    exact c.carrier_name
  have hpureCall := e.pure_call hcall hm.positional_earlier c.earlier_eq hpure
  rw [e.assign_plain σ hm.plain_earlier c.carrier_eq hcarrier hright (hunwrapped ▸ hpureCall),
    hunwrapped, e.value_call σ hcall hm.positional_earlier c.earlier_eq hpure]

/-- The later call makes behind the earlier statement what it makes, without that statement, of the
earlier call. -/
theorem value_later (c : Cascade t node) (hm : c.Mergeable) (e : Evaluation Value)
    (hearlier : ∀ n ∈ c.earlierCall.arguments, e.Pure n)
    (hlater : ∀ n ∈ c.laterCall.arguments, e.Pure n) (σ : String → Value) :
    e.value c.laterCall (e.assign c.assignment σ) = e.fed c.later c.earlier σ := by
  have hcall : isReplaceCall c.laterCall := (Option.filter_eq_some_iff.1 c.laterCall_eq).2
  have harguments := (arguments_of_ofCall? c.later_eq).2
  have hkeep : ∀ n ∈ c.laterCall.arguments, ¬ n.Mentions c.name → ∀ v,
      e.value n (Function.update σ c.name v) = e.value n σ := by
    intro n hn hnot v
    refine e.value_congr (hlater n hn) fun name hname => Function.update_of_ne ?_ v σ
    rintro rfl
    exact hnot hname
  rw [c.assign_earlier hm e hearlier, e.value_call _ hcall hm.positional_later c.later_eq hlater,
    hkeep _ (by simp [harguments]) hm.not_in_search,
    hkeep _ (by simp [harguments]) hm.not_in_replacement,
    e.value_variable _ c.subject_name, Function.update_self, Evaluation.fed]

theorem assign_later (c : Cascade t node) (ht : t.Linked) (hm : c.Mergeable)
    (e : Evaluation Value) (hearlier : ∀ n ∈ c.earlierCall.arguments, e.Pure n)
    (hlater : ∀ n ∈ c.laterCall.arguments, e.Pure n) (hkind : t.kind node = .assignExpr)
    (σ : String → Value) :
    e.assign (t.node node) (e.assign c.assignment σ) =
      Function.update σ c.name (e.fed c.later c.earlier σ) := by
  have hnode : (t.node node).kind = .assignExpr := (t.kind_node node).trans hkind
  obtain ⟨hcall, right, hright, hunwrapped⟩ := exists_value_of_valueOf? c.laterCall_eq hnode
  have hpureCall := e.pure_call hcall hm.positional_later c.later_eq hlater
  have hstorage := c.storage_eq
  rw [if_pos hkind] at hstorage
  rw [e.assign_plain _ (hm.plain_later hkind) hstorage (c.storage_name ht) hright
    (hunwrapped ▸ hpureCall), hunwrapped, c.value_later hm e hearlier hlater,
    c.assign_earlier hm e hearlier, Function.update_idem]

end Cascade

/-- Exactly two calls in a row are reported as such. Where what the rule leaves out holds besides,
and the arguments change nothing, the later call makes the same of the earlier call itself, with no
statement before it, and an assignment leaves the same behind. -/
theorem cascading_result (ctx : RuleContext) (node : NodeId) (ht : ctx.tree.Linked) :
    (∀ f, f ∈ rule.check ctx node ∧ f.message = messageCascading ↔
      ∃ c : Cascade ctx.tree node, f = c.finding) ∧
    ∀ (c : Cascade ctx.tree node), c.Mergeable →
      ∀ {Value : Type} (e : Evaluation Value),
        (∀ n ∈ c.earlierCall.arguments ++ c.laterCall.arguments, e.Pure n) →
        ∀ σ, e.value c.laterCall (e.assign c.assignment σ) = e.fed c.later c.earlier σ ∧
          (ctx.tree.kind node = .assignExpr →
            e.assign (ctx.tree.node node) (e.assign c.assignment σ) =
              Function.update σ c.name (e.fed c.later c.earlier σ)) := by
  refine ⟨fun f => cascading_mem_check_iff, fun c hm Value e hpure σ => ?_⟩
  have hearlier : ∀ n ∈ c.earlierCall.arguments, e.Pure n := fun n hn =>
    hpure n (List.mem_append_left _ hn)
  have hlater : ∀ n ∈ c.laterCall.arguments, e.Pure n := fun n hn =>
    hpure n (List.mem_append_right _ hn)
  exact ⟨c.value_later hm e hearlier hlater σ,
    fun hkind => c.assign_later ht hm e hearlier hlater hkind σ⟩

end CascadeReplace

namespace ReplaceCall

/-! Texts as byte strings, with `.=` for the one compound assignment. -/

/-- What stands between the quotes. -/
def wordBytes (n : Node) : Bytes :=
  match (Text.trim n.text).toList with
  | quote :: body => quotedBytes quote body.dropLast
  | [] => []

def bytesOf (n : Node) (σ : String → Bytes) : Bytes :=
  match n.variableName? with
  | some name => σ name
  | none =>
    match _h : ofCall? n with
    | some parts =>
      if n.isCallTo [functionName] then
        run (.one (bytesOf parts.search σ)) (.one (bytesOf parts.replacement σ))
          (bytesOf parts.subject σ)
      else wordBytes n
    | none => wordBytes n
termination_by sizeOf n
decreasing_by
  all_goals
    refine Node.sizeOf_lt_of_mem_arguments ?_
    simp [(arguments_of_ofCall? _h).2]

def assignBytes (n : Node) (σ : String → Bytes) : String → Bytes :=
  match n.target?.bind (·.unparenthesized.variableName?), n.value? with
  | some name, some right =>
    let new := bytesOf right.unparenthesized σ
    Function.update σ name (if n.operatorKind? = some .dotEq then σ name ++ new else new)
  | _, _ => σ

theorem bytesOf_variable {n : Node} {name : String} (h : n.variableName? = some name)
    (σ : String → Bytes) : bytesOf n σ = σ name := by rw [bytesOf, h]

theorem bytesOf_call {call : Node} {parts : ReplaceCall} (hcall : isReplaceCall call)
    (hparts : ofCall? call = some parts) (σ : String → Bytes) :
    bytesOf call σ = run (.one (bytesOf parts.search σ)) (.one (bytesOf parts.replacement σ))
      (bytesOf parts.subject σ) := by
  have hname : call.variableName? = none := by
    simp [Node.variableName?, (arguments_of_ofCall? hparts).1]
  rw [isReplaceCall, Bool.and_eq_true] at hcall
  rw [bytesOf, hname]
  dsimp only
  split
  next parts' hparts' =>
    obtain rfl := Option.some.inj (hparts.symm.trans hparts')
    rw [if_pos hcall.2]
  next hnone => simp [hparts] at hnone

theorem bytesOf_literal {n : Node} (h : n.kind = .literal) (σ : String → Bytes) :
    bytesOf n σ = wordBytes n := by
  have hname : n.variableName? = none := by simp [Node.variableName?, h]
  have hnone : ofCall? n = none := by simp [ofCall?, h]
  rw [bytesOf, hname]
  dsimp only
  split
  next parts hparts => simp [hnone] at hparts
  next => rfl

theorem assignBytes_eq {n target right : Node} {name : String} (htarget : n.target? = some target)
    (hname : target.unparenthesized.variableName? = some name) (hright : n.value? = some right)
    (σ : String → Bytes) : assignBytes n σ = Function.update σ name
      (if n.operatorKind? = some .dotEq then σ name ++ bytesOf right.unparenthesized σ
        else bytesOf right.unparenthesized σ) := by
  simp [assignBytes, htarget, hname, hright]

theorem operatorKind?_of_plain {n : Node} (h : n.IsPlainAssignment) (hkind : n.kind = .assignExpr) :
    n.operatorKind? = some .eq := by
  have hhead := congrArg List.head? h
  rw [List.head?_map, List.head?_filter] at hhead
  rw [Node.operatorKind?, Node.operator?, hkind]
  exact hhead

def inBytes : Evaluation Bytes where
  Pure n := ∀ σ τ : String → Bytes, (∀ name, n.Mentions name → σ name = τ name) →
    bytesOf n σ = bytesOf n τ
  value := bytesOf
  replace search replacement subject := run (.one search) (.one replacement) subject
  assign := assignBytes
  value_congr hn h := hn _ _ h
  value_variable σ h := bytesOf_variable h σ
  pure_call := by
    intro call parts hcall _ hparts hpure σ τ h
    have hargument : ∀ n ∈ call.arguments, bytesOf n σ = bytesOf n τ := fun n hn =>
      hpure n hn σ τ fun name hname => h name (hname.of_argument hn)
    simp only [(arguments_of_ofCall? hparts).2, List.forall_mem_cons] at hargument
    rw [bytesOf_call hcall hparts, bytesOf_call hcall hparts, hargument.1, hargument.2.1,
      hargument.2.2.1]
  value_call σ hcall _ hparts _ := bytesOf_call hcall hparts σ
  assign_plain := by
    intro n target right name σ hplain htarget hname hright _
    have hkind : n.kind = .assignExpr := by
      by_contra hne
      simp [Node.target?, hne] at htarget
    simp [assignBytes_eq htarget hname hright, operatorKind?_of_plain hplain hkind]

theorem pure_variable {n : Node} {name : String} (h : n.variableName? = some name) :
    inBytes.Pure n := fun σ τ hagree => by
  rw [bytesOf_variable h, bytesOf_variable h]
  exact hagree name (Node.mentions_of_variableName? h)

theorem pure_literal {n : Node} (h : n.kind = .literal) : inBytes.Pure n := fun σ τ _ => by
  rw [bytesOf_literal h, bytesOf_literal h]

/-! Two assignments to `$x`: the first of `str_replace('a', 'b', $s)` by some operator, the second,
by `=`, of a call with some search, the replacement `'d'` and the subject `$x`. -/

def leafEvents (kind token : Kind) (text : String) : List BuildEvent :=
  [.start kind, .token token text, .finish]

def assignEvents (operator : Kind) (sign : String) (value : List BuildEvent) : List BuildEvent :=
  [.start .exprStmt, .start .assignExpr] ++ leafEvents .variableExpr .varName "$x" ++
    [.token operator sign] ++ value ++ [.finish, .token .semicolon ";", .finish]

def inRowTree (operator : Kind) (sign : String) (kind token : Kind) (text : String) : Tree :=
  .ofEvents (.start .sourceFile ::
    assignEvents operator sign (callEvents [wordEvents "\x27a\x27", wordEvents "\x27b\x27",
      subjectEvents]) ++
    assignEvents .eq "=" (callEvents [leafEvents kind token text, wordEvents "\x27d\x27",
      leafEvents .variableExpr .varName "$x"]) ++ [.finish])

def inRow (operator : Kind) (sign : String) (kind token : Kind) (text : String) : RuleContext :=
  { (default : RuleContext) with tree := inRowTree operator sign kind token text }

def leafNode (id : NodeId) (kind token : Kind) (text : String) : Node :=
  ⟨id + 1, kind, none, [⟨id, token, some text, []⟩]⟩

/-- A call whose first node is numbered `id`, its arguments being leaves. -/
def callNode (id : NodeId) (search replacement subject : Node) : Node :=
  ⟨id + 13, .callExpr, none, [⟨id + 1, .nameRef, none, [⟨id, .ident, some functionName, []⟩]⟩,
    ⟨id + 12, .argList, none, [⟨id + 2, .lParen, some "(", []⟩, search,
      ⟨id + 5, .comma, some ",", []⟩, replacement, ⟨id + 8, .comma, some ",", []⟩, subject,
      ⟨id + 11, .rParen, some ")", []⟩]⟩]⟩

def assignNode (id : NodeId) (operator : Kind) (sign : String) (call : Node) : Node :=
  ⟨id + 17, .assignExpr, none, [leafNode id .variableExpr .varName "$x",
    ⟨id + 2, operator, some sign, []⟩, call]⟩

def earlierParts : ReplaceCall :=
  ⟨wordNode 6 "\x27a\x27", wordNode 9 "\x27b\x27", subjectNode 12⟩

def laterParts (kind token : Kind) (text : String) : ReplaceCall :=
  ⟨leafNode 26 kind token text, wordNode 29 "\x27d\x27",
    leafNode 32 .variableExpr .varName "$x"⟩

def callOf (id : NodeId) (parts : ReplaceCall) : Node :=
  callNode id parts.search parts.replacement parts.subject

theorem isCallTo_callNode (id : NodeId) (search replacement subject : Node) :
    (callNode id search replacement subject).isCallTo [functionName] = true := by
  have hname : (callNode id search replacement subject).calleeName? =
      some (ClassName.dropSeparators (Text.trim (Node.text ⟨id + 1, .nameRef, none,
        [⟨id, .ident, some functionName, []⟩]⟩))) := rfl
  have htext : Node.text ⟨id + 1, .nameRef, none, [⟨id, .ident, some functionName, []⟩]⟩ =
      functionName := by simp [Node.text, Node.textAll]
  have hdrop : ClassName.dropSeparators (Text.trim functionName) = functionName := by decide
  rw [Node.isCallTo, hname, htext, hdrop]
  simp

theorem isReplaceCall_callOf {id : NodeId} {parts : ReplaceCall}
    (hparts : ofCall? (callOf id parts) = some parts) : isReplaceCall (callOf id parts) = true := by
  rw [isReplaceCall, hparts, callOf, isCallTo_callNode]
  rfl

theorem valueOf?_assignNode {id call : NodeId} {operator : Kind} {sign : String}
    {parts : ReplaceCall} (hparts : ofCall? (callOf call parts) = some parts) :
    valueOf? (assignNode id operator sign (callOf call parts)) = some (callOf call parts) := by
  have hvalue : valueOf? (assignNode id operator sign (callOf call parts)) =
      (some (callOf call parts).unparenthesized).filter isReplaceCall := rfl
  rw [hvalue, CascadeReplace.unparenthesized_of_kind rfl, Option.filter_some,
    if_pos (isReplaceCall_callOf hparts)]

theorem variableName?_leafNode (id : NodeId) :
    (leafNode id .variableExpr .varName "$x").variableName? = some "x" := by
  have hname : (leafNode id .variableExpr .varName "$x").variableName? =
      some (.ofList ("$x".toList.dropWhile (· == '$'))) := rfl
  rw [hname]
  decide

end ReplaceCall

namespace CascadeReplace

open ReplaceCall

variable (operator : Kind) (sign : String) (kind token : Kind) (text : String)

theorem node_inRow : (inRowTree operator sign kind token text).node 37 =
    assignNode 20 .eq "=" (callOf 23 (laterParts kind token text)) := by cbv

theorem node_inRow_previous : ((inRowTree operator sign kind token text).node 19).childNodes.head? =
    some (assignNode 0 operator sign (callOf 3 earlierParts)) := by cbv

def inRowCascade : Cascade (inRowTree operator sign kind token text) 37 where
  statement := 39
  previous := 19
  assignment := assignNode 0 operator sign (callOf 3 earlierParts)
  earlierCall := callOf 3 earlierParts
  laterCall := callOf 23 (laterParts kind token text)
  earlier := earlierParts
  later := laterParts kind token text
  carrier := leafNode 0 .variableExpr .varName "$x"
  storage := leafNode 20 .variableExpr .varName "$x"
  name := "x"
  statement_eq := by cbv
  previous_eq := by cbv
  previous_kind := by cbv
  assignment_eq := node_inRow_previous operator sign kind token text
  assignment_kind := rfl
  earlierCall_eq := valueOf?_assignNode rfl
  laterCall_eq := by rw [node_inRow]; exact valueOf?_assignNode rfl
  earlier_eq := rfl
  later_eq := rfl
  carrier_eq := rfl
  carrier_name := variableName?_leafNode 0
  subject_name := variableName?_leafNode 32
  storage_eq := by
    rw [node_inRow, if_pos (by cbv)]
    rfl
  storage_same := by cbv

theorem linked_inRow : (inRowTree operator sign kind token text).Linked := by
  rw [inRowTree]
  exact (Tree.sound_ofEvents _).linked

theorem positional_callOf (id : NodeId) {parts : ReplaceCall}
    (h : ∀ n ∈ [parts.search, parts.replacement, parts.subject], n.isToken = false) :
    (callOf id parts).IsPositional := by
  intro list hlist c hc htoken
  cases hlist
  simp only [List.forall_mem_cons] at h
  simp only [Node.solidChildren, List.mem_filter, List.mem_cons] at hc
  obtain ⟨rfl | rfl | rfl | rfl | rfl | rfl | rfl | hnil, -⟩ := hc
  · simp
  · simp [h.1] at htoken
  · simp
  · simp [h.2.1] at htoken
  · simp
  · simp [h.2.2.1] at htoken
  · simp
  · cases hnil

theorem not_mentions_literal (id : NodeId) (token : Kind) (text name : String)
    (htoken : token ≠ .variableExpr) :
    ¬ (leafNode id .literal token text).Mentions name := by
  simp [leafNode, Node.mentions_iff, Node.preorder, Node.preorderAll, Node.variableName?, htoken]

theorem pure_inRow (hkind : kind = .literal ∨ kind = .variableExpr ∧ token = .varName) :
    ∀ n ∈ (inRowCascade operator sign kind token text).earlierCall.arguments ++
      (inRowCascade operator sign kind token text).laterCall.arguments, inBytes.Pure n := by
  have harguments : (inRowCascade operator sign kind token text).earlierCall.arguments ++
      (inRowCascade operator sign kind token text).laterCall.arguments =
      [wordNode 6 "\x27a\x27", wordNode 9 "\x27b\x27", subjectNode 12,
        leafNode 26 kind token text, wordNode 29 "\x27d\x27",
        leafNode 32 .variableExpr .varName "$x"] := rfl
  rw [harguments]
  simp only [List.forall_mem_cons]
  refine ⟨pure_literal rfl, pure_literal rfl, pure_variable rfl, ?_, pure_literal rfl,
    pure_variable rfl, nofun⟩
  rcases hkind with rfl | ⟨rfl, rfl⟩
  · exact pure_literal rfl
  · exact pure_variable rfl

/-- `$x = str_replace('a', 'b', $s); $x = str_replace('c', 'd', $x);` -/
theorem result_of_plain_in_row :
    let ctx := inRow .eq "=" .literal .string "\x27c\x27"
    ∃ c : Cascade ctx.tree 37, c.finding ∈ rule.check ctx 37 ∧ ∀ σ,
      inBytes.assign (ctx.tree.node 37) (inBytes.assign c.assignment σ) =
        Function.update σ "x" (inBytes.fed c.later c.earlier σ) := by
  intro ctx
  obtain ⟨hiff, hresult⟩ := cascading_result ctx 37 (linked_inRow ..)
  let c : Cascade ctx.tree 37 := inRowCascade .eq "=" .literal .string "\x27c\x27"
  have hm : c.Mergeable := by
    refine ⟨rfl, fun _ => ?_, ?_, ?_, positional_callOf 3 ?_, positional_callOf 23 ?_⟩
    · have hnode : ctx.tree.node 37 = _ := node_inRow ..
      rw [hnode]
      rfl
    · simp [c, inRowCascade, laterParts, not_mentions_literal]
    · simp [c, inRowCascade, laterParts, wordNode, Node.mentions_iff, Node.preorder,
        Node.preorderAll, Node.variableName?]
    · simp [earlierParts, wordNode, subjectNode, Node.isToken]
    · simp [laterParts, leafNode, wordNode, Node.isToken]
  refine ⟨c, ((hiff c.finding).2 ⟨c, rfl⟩).1, fun σ => ?_⟩
  exact (hresult c hm inBytes (pure_inRow _ _ _ _ _ (.inl rfl)) σ).2 (by cbv)

theorem bytesOf_earlierParts (σ : String → Bytes) :
    bytesOf earlierParts.search σ = [97] ∧ bytesOf earlierParts.replacement σ = [98] ∧
      bytesOf earlierParts.subject σ = σ "s" :=
  ⟨(bytesOf_literal rfl σ).trans (by decide), (bytesOf_literal rfl σ).trans (by decide),
    bytesOf_variable rfl σ⟩

theorem bytesOf_laterParts (σ : String → Bytes) :
    bytesOf (laterParts kind token text).replacement σ = [100] ∧
      bytesOf (laterParts kind token text).subject σ = σ "x" := by
  have hword : wordBytes (wordNode 29 "\x27d\x27") = [100] := by decide
  exact ⟨(bytesOf_literal rfl σ).trans hword, bytesOf_variable (variableName?_leafNode 32) σ⟩

theorem assign_inRow (h : (assignNode 0 operator sign (callOf 3 earlierParts)).operatorKind? =
    some operator) (σ : String → Bytes) :
    inBytes.assign (inRowCascade operator sign kind token text).assignment σ =
      Function.update σ "x" (if operator = .dotEq then σ "x" ++ run (.one [97]) (.one [98]) (σ "s")
        else run (.one [97]) (.one [98]) (σ "s")) := by
  have hname : (leafNode 0 .variableExpr .varName "$x").unparenthesized.variableName? =
      some "x" := by
    rw [Node.unparenthesized_of_variableName? (variableName?_leafNode 0)]
    exact variableName?_leafNode 0
  obtain ⟨hsearch, hreplacement, hsubject⟩ := bytesOf_earlierParts σ
  refine (assignBytes_eq (n := assignNode 0 operator sign (callOf 3 earlierParts)) rfl hname rfl
    σ).trans ?_
  rw [h, unparenthesized_of_kind rfl, bytesOf_call (isReplaceCall_callOf rfl) rfl, hsearch,
    hreplacement, hsubject]
  simp

theorem value_inRow (σ : String → Bytes) :
    inBytes.value (inRowCascade operator sign kind token text).laterCall σ =
      run (.one (bytesOf (laterParts kind token text).search σ)) (.one [100]) (σ "x") := by
  obtain ⟨hreplacement, hsubject⟩ := bytesOf_laterParts kind token text σ
  have hparts : ofCall? (callOf 23 (laterParts kind token text)) =
      some (laterParts kind token text) := rfl
  refine (bytesOf_call (isReplaceCall_callOf hparts) hparts σ).trans ?_
  rw [hreplacement, hsubject]

theorem fed_inRow (σ : String → Bytes) :
    inBytes.fed (inRowCascade operator sign kind token text).later
        (inRowCascade operator sign kind token text).earlier σ =
      run (.one (bytesOf (laterParts kind token text).search σ)) (.one [100])
        (run (.one [97]) (.one [98]) (σ "s")) := by
  obtain ⟨hsearch, hreplacement, hsubject⟩ := bytesOf_earlierParts σ
  obtain ⟨hreplacement', -⟩ := bytesOf_laterParts kind token text σ
  change run (.one (bytesOf (laterParts kind token text).search σ))
    (.one (bytesOf (laterParts kind token text).replacement σ))
    (run (.one (bytesOf earlierParts.search σ)) (.one (bytesOf earlierParts.replacement σ))
      (bytesOf earlierParts.subject σ)) = _
  rw [hsearch, hreplacement, hsubject, hreplacement']

/-- By `.=` the first statement keeps what `$x` held before, which is gone without it. A search for
`$x` finds what the first statement left in it, and without it something else. -/
theorem exists_cascade_result_ne :
    (∃ (ctx : RuleContext) (node : NodeId) (c : Cascade ctx.tree node) (σ : String → Bytes),
      c.finding ∈ rule.check ctx node ∧ ¬ c.assignment.IsPlainAssignment ∧
      (∀ n ∈ c.earlierCall.arguments ++ c.laterCall.arguments, inBytes.Pure n) ∧
      inBytes.value c.laterCall (inBytes.assign c.assignment σ) ≠
        inBytes.fed c.later c.earlier σ) ∧
    ∃ (ctx : RuleContext) (node : NodeId) (c : Cascade ctx.tree node) (σ : String → Bytes),
      c.finding ∈ rule.check ctx node ∧ c.later.search.Mentions c.name ∧
      (∀ n ∈ c.earlierCall.arguments ++ c.laterCall.arguments, inBytes.Pure n) ∧
      inBytes.value c.laterCall (inBytes.assign c.assignment σ) ≠
        inBytes.fed c.later c.earlier σ := by
  constructor
  · let ctx := inRow .dotEq ".=" .literal .string "\x27c\x27"
    let c : Cascade ctx.tree 37 := inRowCascade .dotEq ".=" .literal .string "\x27c\x27"
    have hsearch : ∀ σ, bytesOf (laterParts .literal .string "\x27c\x27").search σ = [99] :=
      fun σ => (bytesOf_literal rfl σ).trans (by decide)
    refine ⟨ctx, 37, c, fun _ => [120], ?_, ?_, pure_inRow _ _ _ _ _ (.inl rfl), ?_⟩
    · exact (cascading_mem_check_iff.2 ⟨c, rfl⟩).1
    · rw [Node.IsPlainAssignment]
      decide
    · rw [assign_inRow _ _ _ _ _ rfl, value_inRow, fed_inRow, hsearch, hsearch, if_pos rfl,
        Function.update_self]
      decide
  · let ctx := inRow .eq "=" .variableExpr .varName "$x"
    let c : Cascade ctx.tree 37 := inRowCascade .eq "=" .variableExpr .varName "$x"
    have hsearch : ∀ σ, bytesOf (laterParts .variableExpr .varName "$x").search σ = σ "x" :=
      bytesOf_variable (variableName?_leafNode 26)
    refine ⟨ctx, 37, c, Function.update (fun _ => [97]) "x" [120], ?_, ?_,
      pure_inRow _ _ _ _ _ (.inr ⟨rfl, rfl⟩), ?_⟩
    · exact (cascading_mem_check_iff.2 ⟨c, rfl⟩).1
    · exact Node.mentions_of_variableName? (variableName?_leafNode 26)
    · rw [assign_inRow _ _ _ _ _ rfl, value_inRow, fed_inRow, hsearch, hsearch,
        if_neg (by decide), Function.update_self, Function.update_self, Function.update_of_ne
        (by decide)]
      decide

end CascadeReplace

end PhpLint
