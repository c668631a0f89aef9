import PhpLint.Fix.Plan
import PhpLint.Literal.Quoted
import PhpLint.Proofs.ReplaceCall.Alignment
import PhpLint.Proofs.ReplaceCall.Reading
import PhpLint.Tree.Builder

/-! The call that a merge plans, read off its text, against the two calls it stands for. -/

namespace PhpLint

namespace ReplaceCall

/-- The value of an element without a key is the literal with this text. -/
def HasLiteral (element : Node) (text : String) : Prop :=
  element.elementKey? = none ∧ ∃ literal, element.elementValue? = some literal ∧
    literal.isStringLiteral = true ∧ Piece.textOf literal = text

/-- Elements are nothing but their literals. -/
def Plain (n : Node) : Prop := ∀ element ∈ n.elements, HasLiteral element (Piece.textOf element)

section

variable (value : Char → List Char → Bytes)

def ReadsElement (element : Node) (bytes : Bytes) : Prop :=
  ∃ text, HasLiteral element text ∧ Spells value text bytes

/-- A literal, or an array of literals without keys. -/
inductive Reads (n : Node) : Argument → Prop
  | one {bytes : Bytes} (literal : n.isStringLiteral = true)
      (spells : Spells value (Piece.textOf n) bytes) : Reads n (.one bytes)
  | many {list : List Bytes} (array : n.kind = .arrayExpr)
      (elements : List.Forall₂ (ReadsElement value) n.elements list) : Reads n (.many list)

end

/-- Both calls replace by one and the same literal, alone or in a list of its own. -/
def SameLiteral (earlier later : ReplaceCall) : Prop :=
  ∃ text, Piece.unboxed later.replacement = .scalar text true ∧
    Piece.unboxed earlier.replacement = .scalar text true

variable {value : Char → List Char → Bytes} {n : Node} {a search replacement : Argument}
  {earlier later : ReplaceCall} {text : String} {es er ls lr : Argument}

theorem kind_of_isStringLiteral (h : n.isStringLiteral = true) : n.kind = .literal := by
  rw [Node.isStringLiteral, Node.literalToken?] at h
  split at h
  case isTrue hkind => exact hkind
  case isFalse => cases h

theorem elements_of_isStringLiteral (h : n.isStringLiteral = true) : n.elements = [] := by
  rw [Node.elements, kind_of_isStringLiteral h, if_neg (by decide)]

theorem read_of_isStringLiteral (h : n.isStringLiteral = true) :
    Piece.read n = .scalar (Piece.textOf n) true := by
  rw [Piece.read, kind_of_isStringLiteral h, if_neg (by decide), h]

theorem isStringLiteral_of_array (h : n.kind = .arrayExpr) : n.isStringLiteral = false := by
  rw [Node.isStringLiteral, Node.literalToken?, h, if_neg (by decide)]
  rfl

theorem HasLiteral.eq {element : Node} {other : String} (h : HasLiteral element text)
    (h' : HasLiteral element other) : text = other := by
  obtain ⟨-, literal, hvalue, -, rfl⟩ := h
  obtain ⟨-, literal', hvalue', -, rfl⟩ := h'
  rw [Option.some.inj (hvalue.symm.trans hvalue')]

theorem spells_of_plain {elements : List Node} {list : List Bytes}
    (h : List.Forall₂ (ReadsElement value) elements list)
    (hplain : ∀ element ∈ elements, HasLiteral element (Piece.textOf element)) :
    List.Forall₂ (Spells value) (elements.map Piece.textOf) list := by
  induction h with
  | nil => exact .nil
  | cons head tail ih =>
    rw [List.forall_mem_cons] at hplain
    obtain ⟨text, hliteral, hspells⟩ := head
    rw [hliteral.eq hplain.1] at hspells
    exact .cons hspells (ih hplain.2)

/-- The elements that merging sees spell the texts. -/
theorem Reads.elements_read (h : Reads value n a) (hplain : Plain n) :
    List.Forall₂ (Spells value) (Piece.read n).elements a.texts := by
  cases h with
  | one literal spells =>
    rw [read_of_isStringLiteral literal]
    exact .cons spells .nil
  | many array elements =>
    rw [Piece.read, if_pos array]
    exact spells_of_plain elements hplain

/-- What counts as a literal has been a literal, or a list with that literal only. -/
theorem Reads.of_unboxed (h : Reads value n a) (hn : Piece.unboxed n = .scalar text true) :
    ∃ r, Spells value text r ∧ (a = .one r ∨ a = .many [r]) := by
  cases h with
  | one literal spells =>
    simp only [Piece.unboxed, elements_of_isStringLiteral literal,
      read_of_isStringLiteral literal] at hn
    obtain ⟨htext, -⟩ := Piece.scalar.inj hn
    exact ⟨_, htext ▸ spells, .inl rfl⟩
  | many array elements =>
    have hread : Piece.read n ≠ .scalar text true := by
      rw [Piece.read, if_pos array]
      exact nofun
    generalize helements : n.elements = list at elements
    cases elements with
    | nil =>
      simp only [Piece.unboxed, helements] at hn
      exact absurd hn hread
    | cons head tail =>
      cases tail with
      | nil =>
        obtain ⟨spelled, ⟨hkey, literal, hvalue, hliteral, rfl⟩, hspells⟩ := head
        simp only [Piece.unboxed, helements, hkey, hvalue, Option.isNone_none, if_true,
          Option.filter_some, hliteral] at hn
        obtain ⟨htext, -⟩ := Piece.scalar.inj hn
        rw [htext] at hspells
        exact ⟨_, hspells, .inr rfl⟩
      | cons second tail =>
        simp only [Piece.unboxed, helements] at hn
        exact absurd hn hread

theorem forall₂_replicate {word : String} {bytes : Bytes} (h : Spells value word bytes) (k : Nat) :
    List.Forall₂ (Spells value) (List.replicate k word) (List.replicate k bytes) := by
  induction k with
  | zero => exact .nil
  | succ k ih => exact .cons h ih

theorem Reads.elements_expanded {c : ReplaceCall} (hs : Reads value c.search search)
    (hr : Reads value c.replacement replacement) (hplain : Plain c.replacement) :
    List.Forall₂ (Spells value) c.expandedReplacement.elements (expanded search replacement) := by
  have hread := hr.elements_read hplain
  cases hr with
  | many array elements =>
    simp only [expandedReplacement, isStringLiteral_of_array array, Bool.false_and]
    exact hread
  | one literal spells =>
    cases hs with
    | one searched =>
      simp only [expandedReplacement, elements_of_isStringLiteral searched, List.length_nil,
        Nat.not_lt_zero, decide_false, Bool.and_false]
      exact hread
    | many array elements =>
      simp only [expandedReplacement, expanded, literal, elements.length_eq, Bool.true_and,
        decide_eq_true_eq]
      split
      · exact forall₂_replicate spells _
      · exact hread

/-- Whether the merged call keeps every replacement with its search. -/
def Kept (same : Prop) (es er ls lr : Argument) : Prop :=
  (same → Spreads es er ∧ Spreads ls lr) ∧
    (¬ same → Aligned es.texts.length ls.texts.length (expanded es er) (expanded ls lr))

theorem mem_texts_of_mem_expanded {r : Bytes} (h : r ∈ expanded search replacement) :
    r ∈ replacement.texts := by
  cases replacement with
  | many replacements => exact h
  | one text =>
    have hr : r = text := by
      cases search with
      | one => simpa [expanded] using h
      | many searches =>
        rw [expanded] at h
        split at h
        · exact List.eq_of_mem_replicate h
        · exact List.mem_singleton.1 h
    exact List.mem_singleton.2 hr

/-- The merged replacement, as it is read, and when it leaves the pairs as they are. -/
theorem exists_replacement (shortArrays : Bool) (hes : Reads value earlier.search es)
    (her : Reads value earlier.replacement er) (hls : Reads value later.search ls)
    (hlr : Reads value later.replacement lr) (heplain : Plain earlier.replacement)
    (hlplain : Plain later.replacement) :
    ∃ merged, (∀ rest, readArgument? value
        (((mergedReplacement earlier later).render shortArrays).toList ++ rest) =
          some (merged, rest)) ∧
      (∀ r ∈ merged.texts, r ∈ er.texts ++ lr.texts) ∧
      (pairs (.many (es.texts ++ ls.texts)) merged = pairs es er ++ pairs ls lr ↔
        Kept (SameLiteral earlier later) es er ls lr) := by
  by_cases same : SameLiteral earlier later
  · obtain ⟨text, hlater, hearlier⟩ := id same
    have hmerged : mergedReplacement earlier later = .scalar text true := by
      simp only [mergedReplacement, hlater, hearlier, if_true]
    obtain ⟨r, hspells, hr⟩ := her.of_unboxed hearlier
    obtain ⟨r', hspells', hr'⟩ := hlr.of_unboxed hlater
    -- the two literals have one text, so they spell the same
    obtain rfl : r' = r := by
      rw [Spells, hspells] at hspells'
      exact congrArg Prod.fst (Option.some.inj hspells').symm
    refine ⟨.one r', fun rest => ?_, fun r hmem => ?_, ?_⟩
    · rw [hmerged]
      exact readArgument?_word hspells
    · rw [List.mem_singleton.1 hmem]
      rcases hr with rfl | rfl <;> exact List.mem_append_left _ (List.mem_singleton_self _)
    · rw [pairs_common_iff hr hr', Kept]
      exact ⟨fun h => ⟨fun _ => h, fun hnot => absurd same hnot⟩, fun h => h.1 same⟩
  · have hmerged : mergedReplacement earlier later =
        Piece.append earlier.expandedReplacement later.expandedReplacement := by
      simp only [mergedReplacement]
      split
      case h_1 text other hlater hearlier =>
        refine if_neg ?_
        rintro rfl
        exact same ⟨_, hlater, hearlier⟩
      case h_2 => rfl
    refine ⟨.many (expanded es er ++ expanded ls lr), fun rest => ?_, fun r hmem => ?_, ?_⟩
    · rw [hmerged]
      exact readArgument?_renderList shortArrays
        (List.rel_append (hes.elements_expanded her heplain)
          (hls.elements_expanded hlr hlplain))
    · rcases List.mem_append.1 hmem with hmem | hmem
      · exact List.mem_append_left _ (mem_texts_of_mem_expanded hmem)
      · exact List.mem_append_right _ (mem_texts_of_mem_expanded hmem)
    · rw [pairs_separate_iff, Kept]
      exact ⟨fun h => ⟨fun hsame => absurd hsame same, fun _ => h⟩, fun h => h.2 same⟩

end ReplaceCall

namespace Fix

open ReplaceCall

/-- The planned call searches for what the earlier call does and then for what the later one does,
in the subject of the earlier. It does the work of both where every replacement is kept with its
search; where no search shows up in another one or in a replacement, it does so only there. -/
theorem planMerge_denotes {t : Tree} {patch eliminate : NodeId} {earlier later : ReplaceCall}
    {value : Char → List Char → Bytes} {es er ls lr : Argument} (shortArrays : Bool)
    (hlater : ofCall? (t.node patch) = some later)
    (hearlier : ofCall? (t.node eliminate) = some earlier)
    (hes : Reads value earlier.search es) (her : Reads value earlier.replacement er)
    (hls : Reads value later.search ls) (hlr : Reads value later.replacement lr)
    (plain : ∀ c ∈ [earlier, later], Plain c.search ∧ Plain c.replacement) :
    ∃ text call,
      planMerge t patch eliminate shortArrays =
        .ok (.replace patch .expression text :: dropStatement t eliminate) ∧
      readCall? value (calleeText (t.node patch)) text = some call ∧
      (earlier.subject.kind ≠ .arrayExpr → call.subject = Piece.textOf earlier.subject) ∧
      call.search = .many (es.texts ++ ls.texts) ∧
      Accepted call.search call.replacement ∧
      (pairs call.search call.replacement = pairs es er ++ pairs ls lr ↔
        Kept (SameLiteral earlier later) es er ls lr) ∧
      (Kept (SameLiteral earlier later) es er ls lr →
        ∀ x, run call.search call.replacement x = run ls lr (run es er x)) ∧
      (Apart (es.texts ++ ls.texts) (er.texts ++ lr.texts) →
        (∀ x, run call.search call.replacement x = run ls lr (run es er x)) →
          Kept (SameLiteral earlier later) es er ls lr) := by
  simp only [List.forall_mem_cons] at plain
  obtain ⟨⟨hes', her'⟩, ⟨hls', hlr'⟩, -⟩ := plain
  obtain ⟨merged, hread, hmem, hkept⟩ := exists_replacement shortArrays hes her hls hlr her' hlr'
  have hsearch : ∀ rest, readArgument? value
      (((Piece.append (.read earlier.search) (.read later.search)).render shortArrays).toList
        ++ rest) = some (.many (es.texts ++ ls.texts), rest) := fun rest =>
    readArgument?_renderList shortArrays
      (List.rel_append (hes.elements_read hes') (hls.elements_read hls'))
  have hcompose (x : Bytes) :
      replaceEach (pairs es er ++ pairs ls lr) x = run ls lr (run es er x) :=
    replaceEach_append ..
  refine ⟨mergedText (calleeText (t.node patch)) earlier later shortArrays,
    ⟨.many (es.texts ++ ls.texts), merged, (Piece.read earlier.subject).render shortArrays⟩,
    by simp only [planMerge, hlater, hearlier], readCall?_eq hsearch hread, fun hkind => ?_, rfl,
    nofun, hkept, fun hk x => ?_, fun hapart hsame => hkept.1 ?_⟩
  · simp only [Piece.read, if_neg hkind, Piece.render]
  · rw [run, hkept.2 hk, hcompose]
  · have hapart' : Apart ((pairs (.many (es.texts ++ ls.texts)) merged).map Prod.fst)
        (er.texts ++ lr.texts) := by
      rw [map_fst_pairs]
      exact hapart
    refine hapart'.eq_of_replaceEach_eq ?_ ?_ ?_ ?_
    · rw [List.map_append, map_fst_pairs, map_fst_pairs, map_fst_pairs]
      rfl
    · exact fun p hp => (snd_mem_of_mem_pairs hp).imp_right (hmem _)
    · intro p hp
      rcases List.mem_append.1 hp with hp | hp
      · exact (snd_mem_of_mem_pairs hp).imp_right (List.mem_append_left _)
      · exact (snd_mem_of_mem_pairs hp).imp_right (List.mem_append_right _)
    · exact fun x => (hsame x).trans (hcompose x).symm

end Fix

namespace ReplaceCall

/-! Small calls, event by event. -/

def wordEvents (word : String) : List BuildEvent := [.start .literal, .token .string word, .finish]

def listEvents (words : List String) : List BuildEvent :=
  [.start .arrayExpr, .token .lBrack "["] ++
    [.token .comma ","].intercalate
      (words.map fun word => .start .arrayElement :: wordEvents word ++ [.finish]) ++
    [.token .rBrack "]", .finish]

def callEvents (arguments : List (List BuildEvent)) : List BuildEvent :=
  [.start .callExpr, .start .nameRef, .token .ident functionName, .finish, .start .argList,
    .token .lParen "("] ++ [.token .comma ","].intercalate arguments ++
    [.token .rParen ")", .finish, .finish]

def subjectEvents : List BuildEvent := [.start .variableExpr, .token .varName "$s", .finish]

/-- `c` is replaced by `y` in what a call makes that searches for `a` and `b`. -/
def nested (replacement : List BuildEvent) : Tree :=
  .ofEvents (callEvents [wordEvents "\x27c\x27", wordEvents "\x27y\x27",
    callEvents [listEvents ["\x27a\x27", "\x27b\x27"], replacement, subjectEvents]])

def wordNode (id : NodeId) (word : String) : Node :=
  ⟨id + 1, .literal, none, [⟨id, .string, some word, []⟩]⟩

def elementNode (id : NodeId) (word : String) : Node :=
  ⟨id + 2, .arrayElement, none, [wordNode id word]⟩

def pairNode (id : NodeId) (first second : String) : Node :=
  ⟨id + 9, .arrayExpr, none, [⟨id, .lBrack, some "[", []⟩, elementNode (id + 1) first,
    ⟨id + 4, .comma, some ",", []⟩, elementNode (id + 5) second, ⟨id + 8, .rBrack, some "]", []⟩]⟩

def singleNode (id : NodeId) (word : String) : Node :=
  ⟨id + 5, .arrayExpr, none, [⟨id, .lBrack, some "[", []⟩, elementNode (id + 1) word,
    ⟨id + 4, .rBrack, some "]", []⟩]⟩

def subjectNode (id : NodeId) : Node :=
  ⟨id + 1, .variableExpr, none, [⟨id, .varName, some "$s", []⟩]⟩

def quotedBytes (quote : Char) (body : List Char) : Bytes :=
  (Literal.unescaped quote body).flatMap String.utf8EncodeChar

variable {id : NodeId} {word first second : String} {bytes bytes' : Bytes}

theorem reads_wordNode (h : Spells value (Piece.textOf (wordNode id word)) bytes) :
    Reads value (wordNode id word) (.one bytes) := .one rfl h

theorem hasLiteral_elementNode :
    HasLiteral (elementNode id word) (Piece.textOf (wordNode id word)) :=
  ⟨rfl, wordNode id word, rfl, rfl, rfl⟩

theorem reads_pairNode (h : Spells value (Piece.textOf (wordNode (id + 1) first)) bytes)
    (h' : Spells value (Piece.textOf (wordNode (id + 5) second)) bytes') :
    Reads value (pairNode id first second) (.many [bytes, bytes']) :=
  .many rfl (.cons ⟨_, hasLiteral_elementNode, h⟩ (.cons ⟨_, hasLiteral_elementNode, h'⟩ .nil))

theorem reads_singleNode (h : Spells value (Piece.textOf (wordNode (id + 1) word)) bytes) :
    Reads value (singleNode id word) (.many [bytes]) :=
  .many rfl (.cons ⟨_, hasLiteral_elementNode, h⟩ .nil)

theorem plain_wordNode : Plain (wordNode id word) := nofun

theorem textOf_elementNode :
    Piece.textOf (elementNode id word) = Piece.textOf (wordNode id word) := by
  simp [Piece.textOf, elementNode, Node.text, Node.textAll]

theorem plain_pairNode : Plain (pairNode id first second) := by
  have helements : (pairNode id first second).elements =
      [elementNode (id + 1) first, elementNode (id + 5) second] := rfl
  rw [Plain, helements]
  simp only [List.forall_mem_cons, textOf_elementNode]
  exact ⟨hasLiteral_elementNode, hasLiteral_elementNode, nofun⟩

theorem plain_singleNode : Plain (singleNode id word) := by
  have helements : (singleNode id word).elements = [elementNode (id + 1) word] := rfl
  rw [Plain, helements]
  simp only [List.forall_mem_cons, textOf_elementNode]
  exact ⟨hasLiteral_elementNode, nofun⟩

end ReplaceCall

namespace Fix

open ReplaceCall

/-- One replacement for two searches and one for a third: it is repeated. -/
theorem run_merged_of_repeated :
    ∃ text call, planMerge (nested (wordEvents "\x27x\x27")) 33 30 true =
        .ok [.replace 33 .expression text] ∧
      readCall? quotedBytes "str_replace" text = some call ∧
      ∀ x, run call.search call.replacement x =
        run (.one [99]) (.one [121]) (run (.many [[97], [98]]) (.one [120]) x) := by
  obtain ⟨subject, hlater⟩ : ∃ subject, ofCall? ((nested (wordEvents "\x27x\x27")).node 33) =
      some ⟨wordNode 3 "\x27c\x27", wordNode 6 "\x27y\x27", subject⟩ := ⟨_, by rfl⟩
  have hearlier : ofCall? ((nested (wordEvents "\x27x\x27")).node 30) =
      some ⟨pairNode 12 "\x27a\x27" "\x27b\x27", wordNode 23 "\x27x\x27", subjectNode 26⟩ := by rfl
  have hcallee : calleeText ((nested (wordEvents "\x27x\x27")).node 33) = "str_replace" := by decide
  have hdrop : dropStatement (nested (wordEvents "\x27x\x27")) 30 = [] := by decide
  have hes : Reads quotedBytes (pairNode 12 "\x27a\x27" "\x27b\x27") (.many [[97], [98]]) :=
    reads_pairNode (by decide) (by decide)
  have her : Reads quotedBytes (wordNode 23 "\x27x\x27") (.one [120]) := reads_wordNode (by decide)
  have hls : Reads quotedBytes (wordNode 3 "\x27c\x27") (.one [99]) := reads_wordNode (by decide)
  have hlr : Reads quotedBytes (wordNode 6 "\x27y\x27") (.one [121]) := reads_wordNode (by decide)
  obtain ⟨text, call, hplan, hread, -, -, -, -, hkept, -⟩ :=
    planMerge_denotes true hlater hearlier hes her hls hlr (by
      simp only [List.forall_mem_cons]
      exact ⟨⟨plain_pairNode, plain_wordNode⟩, ⟨plain_wordNode, plain_wordNode⟩, nofun⟩)
  rw [hcallee] at hread
  rw [hdrop] at hplan
  refine ⟨text, call, hplan, hread, hkept ⟨fun same => ?_, fun _ => .inl rfl⟩⟩
  exact ⟨.inl rfl, .inl rfl⟩

/-- A list with one replacement for two searches: the replacement of the third moves up. -/
theorem exists_run_merged_ne :
    ∃ (t : Tree) (patch eliminate : NodeId) (earlier later : ReplaceCall) (es er ls lr : Argument)
      (text : String) (call : Call) (x : Bytes),
      ofCall? (t.node patch) = some later ∧ ofCall? (t.node eliminate) = some earlier ∧
      Reads quotedBytes earlier.search es ∧ Reads quotedBytes earlier.replacement er ∧
      Reads quotedBytes later.search ls ∧ Reads quotedBytes later.replacement lr ∧
      (∀ c ∈ [earlier, later], Plain c.search ∧ Plain c.replacement) ∧
      Accepted es er ∧ Accepted ls lr ∧
      planMerge t patch eliminate true = .ok [.replace patch .expression text] ∧
      readCall? quotedBytes "str_replace" text = some call ∧
      run call.search call.replacement x ≠ run ls lr (run es er x) := by
  obtain ⟨subject, hlater⟩ :
      ∃ subject, ofCall? ((nested (listEvents ["\x27x\x27"])).node 37) =
        some ⟨wordNode 3 "\x27c\x27", wordNode 6 "\x27y\x27", subject⟩ := ⟨_, by rfl⟩
  have hearlier : ofCall? ((nested (listEvents ["\x27x\x27"])).node 34) =
      some ⟨pairNode 12 "\x27a\x27" "\x27b\x27", singleNode 23 "\x27x\x27", subjectNode 30⟩ := by
    rfl
  have hes : Reads quotedBytes (pairNode 12 "\x27a\x27" "\x27b\x27") (.many [[97], [98]]) :=
    reads_pairNode (by decide) (by decide)
  have her : Reads quotedBytes (singleNode 23 "\x27x\x27") (.many [[120]]) :=
    reads_singleNode (by decide)
  have hls : Reads quotedBytes (wordNode 3 "\x27c\x27") (.one [99]) := reads_wordNode (by decide)
  have hlr : Reads quotedBytes (wordNode 6 "\x27y\x27") (.one [121]) := reads_wordNode (by decide)
  have hplan : planMerge (nested (listEvents ["\x27x\x27"])) 37 34 true =
      .ok [.replace 37 .expression ("str_replace" ++ "(" ++
        Piece.renderList ["\x27a\x27", "\x27b\x27", "\x27c\x27"] true ++ ", " ++
        Piece.renderList ["\x27x\x27", "\x27y\x27"] true ++ ", " ++ "$s" ++ ")")] := by
    decide
  have hsearch : List.Forall₂ (Spells quotedBytes) ["\x27a\x27", "\x27b\x27", "\x27c\x27"]
      [[97], [98], [99]] := .cons (by decide) (.cons (by decide) (.cons (by decide) .nil))
  have hreplacement : List.Forall₂ (Spells quotedBytes) ["\x27x\x27", "\x27y\x27"]
      [[120], [121]] := .cons (by decide) (.cons (by decide) .nil)
  have hplain : ∀ c ∈ [(⟨pairNode 12 "\x27a\x27" "\x27b\x27", singleNode 23 "\x27x\x27",
      subjectNode 30⟩ : ReplaceCall), ⟨wordNode 3 "\x27c\x27", wordNode 6 "\x27y\x27", subject⟩],
      Plain c.search ∧ Plain c.replacement := by
    simp only [List.forall_mem_cons]
    exact ⟨⟨plain_pairNode, plain_singleNode⟩, ⟨plain_wordNode, plain_wordNode⟩, nofun⟩
  exact ⟨_, _, _, _, _, _, _, _, _, _, _, [98], hlater, hearlier, hes, her, hls, hlr, hplain, nofun,
    fun _ => rfl, hplan, readCall?_eq (fun _ => readArgument?_renderList true hsearch)
      (fun _ => readArgument?_renderList true hreplacement), by decide⟩

end Fix

end PhpLint
