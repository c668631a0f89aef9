import PhpLint.Proofs.ReplaceCall.Merging
import PhpLint.Proofs.ReplaceCall.Repeated
import PhpLint.Proofs.Tree.Expression
import PhpLint.Rule.CascadeReplace

/-! A search list that repeats one literal, against a search for that literal alone. -/

namespace PhpLint

namespace Tree

/-- The node is a subtree of the tree, cut off at some depth. -/
def Shows (t : Tree) (n : Node) : Prop := ∃ depth id, n = t.nodeWithin depth id

variable {t : Tree} {n c : Node}

theorem Shows.kind_eq (h : t.Shows n) : t.kind n.id = n.kind := by
  obtain ⟨depth, id, rfl⟩ := h
  cases depth <;> rfl

theorem Shows.child (h : t.Shows n) (hc : c ∈ n.children) : t.Shows c := by
  obtain ⟨depth, id, rfl⟩ := h
  cases depth with
  | zero => cases hc
  | succ depth =>
    obtain ⟨child, -, rfl⟩ := List.mem_map.1 hc
    exact ⟨depth, child, rfl⟩

theorem Shows.of_mem_preorder (h : t.Shows n) (hc : c ∈ n.preorder) : t.Shows c := by
  induction n using Node.induction with
  | mk id kind token children ih =>
    rw [Node.preorder_eq, List.mem_cons, List.mem_flatMap] at hc
    obtain rfl | ⟨child, hchild, hc⟩ := hc
    · exact h
    · exact ih child hchild (h.child hchild) hc

end Tree

namespace ReplaceCall

variable {search : Node} {literal : String}

theorem mem_preorder_of_valueOf? {n call : Node} (h : valueOf? n = some call) :
    call ∈ n.preorder := by
  obtain ⟨hinner, -⟩ := Option.filter_eq_some_iff.1 h
  obtain ⟨value, hvalue, rfl⟩ := Option.map_eq_some_iff.1 hinner
  have hmem : value ∈ n.childNodes := by
    split at hvalue
    case h_1 hkind =>
      rw [Node.value?, if_pos hkind] at hvalue
      exact List.mem_of_getElem? hvalue
    case h_2 => exact List.mem_of_mem_head? hvalue
    case h_3 => cases hvalue
  exact Node.mem_preorder_of_child (List.mem_filter.1 hmem).1 value.unparenthesized_mem_preorder

theorem arguments_of_ofCall? {n : Node} {parts : ReplaceCall} (h : ofCall? n = some parts) :
    n.kind = .callExpr ∧ n.arguments = [parts.search, parts.replacement, parts.subject] := by
  rw [ofCall?] at h
  split at h
  case isFalse => cases h
  case isTrue hkind =>
    split at h
    · rename_i search replacement subject harguments
      cases h
      exact ⟨hkind, harguments⟩
    · cases h

theorem exists_of_mapM_eq_some {α β : Type} {f : α → Option β} {xs : List α} {ys : List β}
    (h : xs.mapM f = some ys) : ∀ x ∈ xs, ∃ y ∈ ys, f x = some y := by
  induction xs generalizing ys with
  | nil => exact fun _ hx => nomatch hx
  | cons x xs ih =>
    rw [List.mapM_cons] at h
    obtain ⟨y, hy, h⟩ := Option.bind_eq_some_iff.1 h
    obtain ⟨rest, hrest, h⟩ := Option.bind_eq_some_iff.1 h
    cases h
    rw [List.forall_mem_cons]
    refine ⟨⟨y, List.mem_cons_self, hy⟩, fun z hz => ?_⟩
    obtain ⟨w, hw, hzw⟩ := ih hrest z hz
    exact ⟨w, List.mem_cons_of_mem _ hw, hzw⟩

theorem repeatedLiteral?_eq_some (h : repeatedLiteral? search = some literal) :
    search.elements ≠ [] ∧ ∀ element ∈ search.elements, HasLiteral element literal := by
  rw [repeatedLiteral?] at h
  split at h
  case h_2 => cases h
  case h_1 only hmap =>
    cases h
    obtain ⟨texts, htexts, hdups⟩ := Option.map_eq_some_iff.1 hmap
    refine ⟨fun hnil => ?_, fun element helement => ?_⟩
    · rw [hnil] at htexts
      cases htexts
      cases hdups
    · obtain ⟨text, htext, hread⟩ := exists_of_mapM_eq_some htexts element helement
      obtain ⟨value, hfilter, rfl⟩ := Option.map_eq_some_iff.1 hread
      obtain ⟨hvalue, hplain⟩ := Option.filter_eq_some_iff.1 hfilter
      rw [Bool.and_eq_true, Option.isNone_iff_eq_none] at hplain
      have honly : Text.trim value.text ∈ texts.eraseDups := List.mem_eraseDups.2 htext
      rw [hdups, List.mem_singleton] at honly
      exact ⟨hplain.1, value, hvalue, hplain.2, honly⟩

theorem kind_of_elements_ne_nil (h : search.elements ≠ []) : search.kind = .arrayExpr := by
  by_contra hkind
  exact h (if_neg hkind)

/-- The list is a search for the literal, as many times as it has elements. -/
theorem reads_of_repeated {value : Char → List Char → Bytes} {b : Bytes}
    (hne : search.elements ≠ []) (h : ∀ element ∈ search.elements, HasLiteral element literal)
    (hb : Spells value literal b) :
    Reads value search (.many (List.replicate search.elements.length b)) := by
  refine .many (kind_of_elements_ne_nil hne) ?_
  generalize search.elements = elements at h
  induction elements with
  | nil => exact .nil
  | cons element elements ih =>
    rw [List.forall_mem_cons] at h
    exact .cons ⟨literal, h.1, hb⟩ (ih h.2)

end ReplaceCall

namespace CascadeReplace

open ReplaceCall

variable {ctx : RuleContext} {node : NodeId} {f : Finding} {call : Node} {parts : ReplaceCall}

/-- What a finding about a search list says of the call it is about. -/
theorem search_of_mem_check (hcall : valueOf? (ctx.tree.node node) = some call)
    (hparts : ofCall? call = some parts) (hf : f ∈ rule.check ctx node)
    (hm : f.message = messageSearch) :
    ∃ literal, repeatedLiteral? parts.search = some literal ∧
      f.fix = some (.simplifySearch (ctx.tree.handle parts.search.id) literal) := by
  simp only [rule, hcall, hparts, findings, List.mem_append] at hf
  -- the other two findings have messages of their own
  rcases hf with (hf | hf) | hf
  · obtain ⟨previous, -, rfl⟩ := List.mem_map.1 hf
    exact absurd hm (by simp [Finding.withFix, Finding.anchored, messageCascading, messageSearch])
  · split at hf
    · rw [List.mem_singleton.1 hf] at hm
      exact absurd hm (by simp [Finding.withFix, Finding.anchored, messageNesting, messageSearch])
    · cases hf
  · obtain ⟨literal, hliteral, rfl⟩ := List.mem_map.1 hf
    exact ⟨literal, Option.mem_toList.1 hliteral, rfl⟩

theorem planEdits_simplifySearch {literal : String}
    (hcall : valueOf? (ctx.tree.node node) = some call) (hparts : ofCall? call = some parts)
    (hliteral : repeatedLiteral? parts.search = some literal) :
    Fix.planEdits ctx.tree (.simplifySearch (ctx.tree.handle parts.search.id) literal) =
      .ok [.replace parts.search.id .expression literal] := by
  have hshows : ctx.tree.Shows call :=
    Tree.Shows.of_mem_preorder ⟨_, _, rfl⟩ (mem_preorder_of_valueOf? hcall)
  have hargument : parts.search ∈ call.arguments := by simp [(arguments_of_ofCall? hparts).2]
  obtain ⟨list, hlist, hsearch⟩ := Node.exists_child_of_mem_arguments hargument
  have hkind := kind_of_elements_ne_nil (repeatedLiteral?_eq_some hliteral).1
  exact if_pos (((hshows.child hlist).child hsearch).kind_eq.trans hkind)

theorem exists_finding (hcall : valueOf? (ctx.tree.node node) = some call)
    (hparts : ofCall? call = some parts) {literal : String}
    (hliteral : repeatedLiteral? parts.search = some literal) :
    ∃ f ∈ rule.check ctx node, f.message = messageSearch := by
  simp only [rule, hcall, hparts, findings, hliteral]
  exact ⟨_, List.mem_append_right _ (List.mem_singleton_self _), rfl⟩

/-- The planned edit puts the literal in place of the list that repeats it. The call is then still
accepted, and does what it did, just where the replacement is one text too and a second round finds
nothing. -/
theorem search_simplified_iff (hcall : valueOf? (ctx.tree.node node) = some call)
    (hparts : ofCall? call = some parts) (hf : f ∈ rule.check ctx node)
    (hm : f.message = messageSearch) :
    ∃ literal, repeatedLiteral? parts.search = some literal ∧
      f.fix.map (Fix.planEdits ctx.tree) =
        some (.ok [.replace parts.search.id .expression literal]) ∧
      ∀ (value : Char → List Char → Bytes) (b : Bytes), Spells value literal b →
        ∃ n, Reads value parts.search (.many (List.replicate n b)) ∧
          ∀ replacement, Reads value parts.replacement replacement →
            (Accepted (.one b) replacement ∧ (∀ x, run (.one b) replacement x =
                run (.many (List.replicate n b)) replacement x) ↔
              ∃ r, replacement = .one r ∧
                (n = 1 ∨ b = [] ∨ b = r ∨ ∀ x, ¬ b <:+: replaceAll b r x)) := by
  obtain ⟨literal, hliteral, hfix⟩ := search_of_mem_check hcall hparts hf hm
  obtain ⟨hne, helements⟩ := repeatedLiteral?_eq_some hliteral
  have hpos := List.length_pos_of_ne_nil hne
  have hplan := planEdits_simplifySearch hcall hparts hliteral
  refine ⟨literal, hliteral, by rw [hfix, Option.map_some, hplan],
    fun value b hb => ⟨_, reads_of_repeated hne helements hb, fun replacement _ => ?_⟩⟩
  cases replacement with
  | one r => simp [run_one_eq_iff hpos, Accepted, Argument.isOne]
  | many list => simp [Accepted, Argument.isOne]

/-! The literal `a` twice, and one replacement. -/

def aTwiceTree (replacement : String) : Tree :=
  .ofEvents ([.start .assignExpr, .start .variableExpr, .token .varName "$y", .finish,
    .token .eq "="] ++ callEvents [listEvents ["\x27a\x27", "\x27a\x27"], wordEvents replacement,
      subjectEvents] ++ [.finish])

def aTwice (replacement : String) : RuleContext :=
  { (default : RuleContext) with tree := aTwiceTree replacement }

def aTwiceCall (replacement : String) : Node :=
  ⟨24, .callExpr, none, [⟨4, .nameRef, none, [⟨3, .ident, some functionName, []⟩]⟩,
    ⟨23, .argList, none, [⟨5, .lParen, some "(", []⟩, pairNode 6 "\x27a\x27" "\x27a\x27",
      ⟨16, .comma, some ",", []⟩, wordNode 17 replacement, ⟨19, .comma, some ",", []⟩,
      subjectNode 20, ⟨22, .rParen, some ")", []⟩]⟩]⟩

def aTwiceAssignment (replacement : String) : Node :=
  ⟨25, .assignExpr, none, [⟨1, .variableExpr, none, [⟨0, .varName, some "$y", []⟩]⟩,
    ⟨2, .eq, some "=", []⟩, aTwiceCall replacement]⟩

def aTwiceParts (replacement : String) : ReplaceCall :=
  ⟨pairNode 6 "\x27a\x27" "\x27a\x27", wordNode 17 replacement, subjectNode 20⟩

theorem ofCall?_aTwiceCall (replacement : String) :
    ofCall? (aTwiceCall replacement) = some (aTwiceParts replacement) := rfl

theorem isReplaceCall_aTwiceCall (replacement : String) :
    isReplaceCall (aTwiceCall replacement) = true := by
  have hname : (aTwiceCall replacement).calleeName? =
      some (ClassName.dropSeparators (Text.trim (Node.text ⟨4, .nameRef, none,
        [⟨3, .ident, some functionName, []⟩]⟩))) := rfl
  have hdrop : ClassName.dropSeparators (Text.trim (Node.text ⟨4, .nameRef, none,
      [⟨3, .ident, some functionName, []⟩]⟩)) = functionName := by decide
  rw [isReplaceCall, ofCall?_aTwiceCall, Node.isCallTo, hname, hdrop]
  simp

theorem unparenthesized_of_kind {n : Node} (h : n.kind = .callExpr) : n.unparenthesized = n := by
  exact Node.unparenthesized_of_kind_ne (by simp [h])

theorem valueOf?_aTwiceAssignment (replacement : String) :
    valueOf? (aTwiceAssignment replacement) = some (aTwiceCall replacement) := by
  have hvalue : valueOf? (aTwiceAssignment replacement) =
      (some (aTwiceCall replacement).unparenthesized).filter isReplaceCall := rfl
  rw [hvalue, unparenthesized_of_kind rfl, Option.filter_some,
    if_pos (isReplaceCall_aTwiceCall replacement)]

theorem repeatedLiteral?_aTwice (replacement : String) :
    repeatedLiteral? (aTwiceParts replacement).search = some "\x27a\x27" := by
  change repeatedLiteral? (pairNode 6 "\x27a\x27" "\x27a\x27") = _
  decide

/-- The literal is replaced by another letter: once is enough. -/
theorem run_once_of_a_twice :
    ∃ f ∈ rule.check (aTwice "\x27x\x27") 25, f.message = messageSearch ∧
      ∃ n, Reads quotedBytes (aTwiceParts "\x27x\x27").search (.many (List.replicate n [97])) ∧
        ∀ x, run (.one [97]) (.one [120]) x =
          run (.many (List.replicate n [97])) (.one [120]) x := by
  have hcall : valueOf? ((aTwice "\x27x\x27").tree.node 25) = some (aTwiceCall "\x27x\x27") := by
    have hnode : (aTwiceTree "\x27x\x27").node 25 = aTwiceAssignment "\x27x\x27" := by rfl
    rw [aTwice, hnode, valueOf?_aTwiceAssignment]
  have hparts := ofCall?_aTwiceCall "\x27x\x27"
  obtain ⟨f, hf, hm⟩ := exists_finding hcall hparts (repeatedLiteral?_aTwice _)
  obtain ⟨literal, hliteral, -, hiff⟩ := search_simplified_iff hcall hparts hf hm
  obtain rfl := Option.some.inj (hliteral.symm.trans (repeatedLiteral?_aTwice _))
  obtain ⟨n, hsearch, hsame⟩ := hiff quotedBytes [97] (by decide)
  refine ⟨f, hf, hm, n, hsearch, ((hsame (.one [120]) (reads_wordNode (by decide))).2 ?_).2⟩
  exact ⟨_, rfl, .inr (.inr (.inr (absent_of_replaceAll (by decide))))⟩

/-- The literal is replaced by itself twice: a second round finds it again. -/
theorem exists_run_once_ne :
    ∃ (ctx : RuleContext) (node : NodeId) (f : Finding) (call : Node) (parts : ReplaceCall)
      (literal : String) (b r x : Bytes) (search : Argument),
      valueOf? (ctx.tree.node node) = some call ∧ ofCall? call = some parts ∧
      f ∈ rule.check ctx node ∧ f.message = messageSearch ∧
      f.fix.map (Fix.planEdits ctx.tree) =
        some (.ok [.replace parts.search.id .expression literal]) ∧
      Reads quotedBytes parts.search search ∧ Reads quotedBytes parts.replacement (.one r) ∧
      Spells quotedBytes literal b ∧ run (.one b) (.one r) x ≠ run search (.one r) x := by
  have hcall : valueOf? ((aTwice "\x27aa\x27").tree.node 25) =
      some (aTwiceCall "\x27aa\x27") := by
    have hnode : (aTwiceTree "\x27aa\x27").node 25 = aTwiceAssignment "\x27aa\x27" := by rfl
    rw [aTwice, hnode, valueOf?_aTwiceAssignment]
  have hparts := ofCall?_aTwiceCall "\x27aa\x27"
  have hliteral := repeatedLiteral?_aTwice "\x27aa\x27"
  obtain ⟨f, hf, hm⟩ := exists_finding hcall hparts hliteral
  obtain ⟨literal, hliteral', hfix⟩ := search_of_mem_check hcall hparts hf hm
  obtain rfl := Option.some.inj (hliteral'.symm.trans hliteral)
  refine ⟨aTwice "\x27aa\x27", 25, f, aTwiceCall "\x27aa\x27", aTwiceParts "\x27aa\x27",
    "\x27a\x27", [97], [97, 97], [97], .many [[97], [97]], hcall, hparts, hf, hm, ?_,
    reads_pairNode (by decide) (by decide), reads_wordNode (by decide), by decide, by decide⟩
  rw [hfix, Option.map_some, planEdits_simplifySearch hcall hparts hliteral]

end CascadeReplace

end PhpLint
