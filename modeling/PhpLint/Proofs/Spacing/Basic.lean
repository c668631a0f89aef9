import PhpLint.Proofs.Equivalence.Formatting
import PhpLint.Proofs.Related

/-! Trees that differ in white space and comments. The one on the right has tokens of both kinds that
the one on the left lacks, anywhere but in literals and names; nodes of some kinds are given white
space only, as their text is compared. Otherwise the trees are the same up to the names of nodes. -/

namespace PhpLint

theorem Text.squeeze_append (s t : String) :
    Text.squeeze (s ++ t) = Text.squeeze s ++ Text.squeeze t := by
  simp [Text.squeeze]

/-- Kinds of nodes that are words and nothing else, and whose text counts. -/
def Kind.holdsWords : Kind → Bool
  | .literal | .declaredName | .nameRef => true
  | _ => false

namespace Node

mutual

/-- The right node is the left one under another name, white space put in below it, and comments
too where `comments` holds, but none within nodes of a guarded kind. -/
inductive Spaced (guarded : Kind → Bool) (name : NodeId → NodeId) : Bool → Node → Node → Prop
  | token {comments : Bool} (id : NodeId) (kind : Kind) (text : String) :
    Spaced guarded name comments ⟨id, kind, some text, []⟩ ⟨name id, kind, some text, []⟩
  | words {comments : Bool} (id : NodeId) {kind : Kind} (words : List (NodeId × Kind × String)) :
    kind.holdsWords = true →
    Spaced guarded name comments ⟨id, kind, none, words.map fun w => ⟨w.1, w.2.1, some w.2.2, []⟩⟩
      ⟨name id, kind, none, words.map fun w => ⟨name w.1, w.2.1, some w.2.2, []⟩⟩
  | composite {comments : Bool} (id : NodeId) {kind : Kind} {cs cs' : List Node} :
    kind.holdsWords = false → SpacedAll guarded name (comments && !guarded kind) cs cs' →
    Spaced guarded name comments ⟨id, kind, none, cs⟩ ⟨name id, kind, none, cs'⟩

inductive SpacedAll (guarded : Kind → Bool) (name : NodeId → NodeId) :
    Bool → List Node → List Node → Prop
  | nil {comments : Bool} : SpacedAll guarded name comments [] []
  | keep {comments : Bool} {c c' : Node} {cs cs' : List Node} : Spaced guarded name comments c c' →
    SpacedAll guarded name comments cs cs' → SpacedAll guarded name comments (c :: cs) (c' :: cs')
  | insert {comments : Bool} {blank : Node} {cs cs' : List Node} : blank.IsBlank →
    (comments = false → Text.squeeze blank.text = "") → SpacedAll guarded name comments cs cs' →
    SpacedAll guarded name comments cs (blank :: cs')

end

/-- Two nodes that are the same but for white space and comments. -/
def Respaced (guarded : Kind → Bool) (name : NodeId → NodeId) (n n' : Node) : Prop :=
  ∃ comments, Spaced guarded name comments n n'

variable {guarded : Kind → Bool} {name : NodeId → NodeId} {comments : Bool} {n n' c : Node}
  {cs cs' : List Node}

theorem Spaced.head_eq (h : Spaced guarded name comments n n') :
    n'.id = name n.id ∧ n.kind = n'.kind ∧ n.token = n'.token := by
  cases h <;> exact ⟨rfl, rfl, rfl⟩

namespace Respaced

theorem id_eq (h : Respaced guarded name n n') : n'.id = name n.id :=
  h.elim fun _ h => h.head_eq.1

theorem kind_eq (h : Respaced guarded name n n') : n.kind = n'.kind :=
  h.elim fun _ h => h.head_eq.2.1

theorem token_eq (h : Respaced guarded name n n') : n.token = n'.token :=
  h.elim fun _ h => h.head_eq.2.2

theorem isToken_eq (h : Respaced guarded name n n') : n.isToken = n'.isToken := by
  rw [isToken, h.token_eq, isToken]

theorem isTrivia_eq (h : Respaced guarded name n n') : n.isTrivia = n'.isTrivia := by
  rw [isTrivia, h.kind_eq, isTrivia]

end Respaced

theorem Spaced.exists_children (h : Spaced guarded name comments n n') :
    ∃ comments, SpacedAll guarded name comments n.children n'.children := by
  cases h with
  | token => exact ⟨true, .nil⟩
  | words id ws =>
    refine ⟨true, ?_⟩
    induction ws with
    | nil => exact .nil
    | cons w ws ih => exact .keep (.token ..) ih
  | composite _ _ h => exact ⟨_, h⟩

/-- A child, and what stands before and behind it. -/
theorem SpacedAll.split {before after : List Node}
    (h : SpacedAll guarded name comments (before ++ c :: after) cs') :
    ∃ before' c' after', cs' = before' ++ c' :: after' ∧
      SpacedAll guarded name comments before before' ∧ Respaced guarded name c c' ∧
      SpacedAll guarded name comments after after' := by
  induction cs' generalizing before with
  | nil =>
    generalize hcs : before ++ c :: after = cs at h
    cases h
    exact absurd hcs (by simp)
  | cons d' ds' ih =>
    generalize hcs : before ++ c :: after = cs at h
    cases h with
    | keep hd hds =>
      cases before with
      | nil =>
        cases hcs
        exact ⟨[], d', ds', rfl, .nil, ⟨_, hd⟩, hds⟩
      | cons b bs =>
        cases hcs
        obtain ⟨before', c', after', rfl, hbefore, hc, hafter⟩ := ih hds
        exact ⟨d' :: before', c', after', rfl, .keep hd hbefore, hc, hafter⟩
    | insert hb htext hds =>
      cases hcs
      obtain ⟨before', c', after', rfl, hbefore, hc, hafter⟩ := ih hds
      exact ⟨d' :: before', c', after', rfl, .insert hb htext hbefore, hc, hafter⟩

/-- What is put in is blank, so that a test no blank passes picks the same children. -/
theorem SpacedAll.filter (h : SpacedAll guarded name comments cs cs') {p q : Node → Bool}
    (hpq : ∀ {c c'}, Respaced guarded name c c' → p c = q c')
    (hblank : ∀ {c}, IsBlank c → q c = false) :
    List.Forall₂ (Respaced guarded name) (cs.filter p) (cs'.filter q) := by
  induction cs' generalizing cs with
  | nil =>
    cases h
    exact .nil
  | cons c' cs' ih =>
    cases h with
    | keep hc hcs =>
      rw [List.filter_cons, List.filter_cons, hpq ⟨_, hc⟩]
      split
      · exact .cons ⟨_, hc⟩ (ih hcs)
      · exact ih hcs
    | insert hc _ hcs =>
      rw [List.filter_cons, if_neg (by simp [hblank hc])]
      exact ih hcs

theorem SpacedAll.solid (h : SpacedAll guarded name comments cs cs') :
    List.Forall₂ (Respaced guarded name) (cs.filter (!·.isTrivia)) (cs'.filter (!·.isTrivia)) :=
  h.filter (fun hc => by rw [hc.isTrivia_eq]) fun hb => by rw [hb.trivia]; rfl

theorem Spaced.operatorKind?_eq (h : Spaced guarded name comments n n') :
    n.operatorKind? = n'.operatorKind? := by
  obtain ⟨_, hcs⟩ := h.exists_children
  rw [operatorKind?, operatorKind?, operator?, operator?, h.head_eq.2.1]
  split
  iterate 4 exact (hcs.solid.find? Respaced.isToken_eq).map_eq Respaced.kind_eq
  rfl

/-! Texts. -/

theorem text_words (id : NodeId) (kind : Kind) (words : List (NodeId × Kind × String)) :
    (⟨id, kind, none, words.map fun w => ⟨w.1, w.2.1, some w.2.2, []⟩⟩ : Node).text =
      (⟨name id, kind, none, words.map fun w => ⟨name w.1, w.2.1, some w.2.2, []⟩⟩ : Node).text := by
  rw [text, text]
  congr 1
  induction words with
  | nil => rfl
  | cons w words ih => rw [List.map_cons, List.map_cons, textAll, textAll, ih, text, text]

/-- Literals and names keep their text. -/
theorem Spaced.text_eq (h : Spaced guarded name comments n n') (hkind : n.kind.holdsWords = true) :
    n.text = n'.text := by
  cases h with
  | token => rw [text, text]
  | words id ws => exact text_words id _ ws
  | composite _ hwords => exact absurd (hwords.symm.trans hkind) Bool.false_ne_true

mutual

theorem squeeze_text : (n' : Node) → ∀ {n : Node}, Spaced guarded name false n n' →
    Text.squeeze n.text = Text.squeeze n'.text
  | ⟨id, kind, token, cs'⟩, n, h => by
    cases h with
    | token => rfl
    | words id ws => rw [text_words id kind ws]
    | composite _ _ h =>
      rw [text, text, Text.squeeze_append, Text.squeeze_append, squeeze_textAll cs' h]

theorem squeeze_textAll : (cs' : List Node) → ∀ {cs : List Node},
    SpacedAll guarded name false cs cs' → Text.squeeze (textAll cs) = Text.squeeze (textAll cs')
  | [], _, h => by
    cases h
    rfl
  | c' :: cs', _, h => by
    cases h with
    | keep hc hcs =>
      rw [textAll, textAll, Text.squeeze_append, Text.squeeze_append, squeeze_text c' hc,
        squeeze_textAll cs' hcs]
    | insert _ htext hcs =>
      rw [textAll, Text.squeeze_append, htext rfl, squeeze_textAll cs' hcs, String.empty_append]

end

/-- A guarded node keeps its text but for white space. -/
theorem Spaced.squeeze_text_eq (h : Spaced guarded name comments n n')
    (hkind : guarded n.kind = true) : Text.squeeze n.text = Text.squeeze n'.text := by
  cases h with
  | token => rw [text, text]
  | words id ws => rw [text_words id _ ws]
  | composite _ _ hcs =>
    rw [hkind, Bool.not_true, Bool.and_false] at hcs
    rw [text, text, Text.squeeze_append, Text.squeeze_append, squeeze_textAll _ hcs]

/-! Subtrees. -/

theorem IsBlank.preorder_eq {b : Node} (h : b.IsBlank) : b.preorder = [b] := by
  rw [Node.preorder_eq, h.leaf, List.flatMap_nil]

mutual

/-- Of all nodes below, a test no blank passes picks the same. -/
theorem filter_preorder {p q : Node → Bool}
    (hpq : ∀ {c c'}, Respaced guarded name c c' → p c = q c')
    (hblank : ∀ {c}, IsBlank c → q c = false) : (n' : Node) → ∀ {comments : Bool} {n : Node},
    Spaced guarded name comments n n' →
      List.Forall₂ (Respaced guarded name) (n.preorder.filter p) (n'.preorder.filter q)
  | ⟨id', kind, token, cs'⟩, _, n, h => by
    obtain ⟨_, hcs⟩ := h.exists_children
    have hall := filter_preorderAll hpq hblank cs' hcs
    obtain ⟨id, kind, token, cs⟩ := n
    rw [preorder, preorder, List.filter_cons, List.filter_cons, hpq ⟨_, h⟩]
    split
    · exact .cons ⟨_, h⟩ hall
    · exact hall

theorem filter_preorderAll {p q : Node → Bool}
    (hpq : ∀ {c c'}, Respaced guarded name c c' → p c = q c')
    (hblank : ∀ {c}, IsBlank c → q c = false) : (cs' : List Node) →
    ∀ {comments : Bool} {cs : List Node}, SpacedAll guarded name comments cs cs' →
      List.Forall₂ (Respaced guarded name) ((preorderAll cs).filter p) ((preorderAll cs').filter q)
  | [], _, _, h => by
    cases h
    exact .nil
  | c' :: cs', _, _, h => by
    cases h with
    | keep hc hcs =>
      rw [preorderAll, preorderAll, List.filter_append, List.filter_append]
      exact List.rel_append (filter_preorder hpq hblank c' hc) (filter_preorderAll hpq hblank cs' hcs)
    | insert hc _ hcs =>
      rw [preorderAll, hc.preorder_eq, List.singleton_append, List.filter_cons,
        if_neg (by simp [hblank hc])]
      exact filter_preorderAll hpq hblank cs' hcs

end

mutual

/-- The names on the left are some of those on the right, in the same order. -/
theorem map_name_ids : (n' : Node) → ∀ {comments : Bool} {n : Node},
    Spaced guarded name comments n n' →
      ((n.preorder.map Node.id).map name).Sublist (n'.preorder.map Node.id)
  | ⟨id', kind, token, cs'⟩, _, n, h => by
    obtain ⟨_, hcs⟩ := h.exists_children
    have hid := h.head_eq.1
    obtain ⟨id, kind, token, cs⟩ := n
    rw [preorder, preorder, List.map_cons, List.map_cons, List.map_cons, hid]
    exact (map_name_idsAll cs' hcs).cons_cons _

theorem map_name_idsAll : (cs' : List Node) → ∀ {comments : Bool} {cs : List Node},
    SpacedAll guarded name comments cs cs' →
      (((preorderAll cs).map Node.id).map name).Sublist ((preorderAll cs').map Node.id)
  | [], _, _, h => by
    cases h
    exact .slnil
  | c' :: cs', _, _, h => by
    cases h with
    | keep hc hcs =>
      rw [preorderAll, preorderAll, List.map_append, List.map_append, List.map_append]
      exact (map_name_ids c' hc).append (map_name_idsAll cs' hcs)
    | insert _ _ hcs =>
      rw [preorderAll, List.map_append]
      exact (map_name_idsAll cs' hcs).trans (List.sublist_append_right ..)

end

mutual

/-- White space and comments do not occur in a code. -/
theorem code_eq : (n' : Node) → ∀ {comments : Bool} {n : Node}, Spaced guarded name comments n n' →
    ∀ folds, Code.of folds n = Code.of folds n'
  | ⟨id', kind, token, cs'⟩, _, n, h, folds => by
    obtain ⟨_, hcs⟩ := h.exists_children
    obtain ⟨-, hkind, htoken⟩ := h.head_eq
    have hoperator := h.operatorKind?_eq
    have hsolid := hcs.solid.head?.map_eq (f := fun n => (n.kind, n.token))
      (g := fun n => (n.kind, n.token)) fun hc => by rw [hc.kind_eq, hc.token_eq]
    have htext : Code.shapeOf kind token = .name → n.text = (⟨id', kind, token, cs'⟩ : Node).text :=
      fun hshape => h.text_eq (by
        rw [hkind]
        cases kind <;> cases token <;> first | rfl | cases hshape)
    obtain ⟨id, kind, token, cs⟩ := n
    cases hkind
    cases htoken
    rw [Code.of.eq_def, Code.of.eq_def]
    dsimp only [solidChildren] at hsolid htext ⊢
    rw [hoperator, codes_eq cs' hcs, operandCode_eq cs' hcs, elementCodes_eq cs' hcs, hsolid]
    cases hshape : Code.shapeOf kind token with
    | name => rw [htext hshape]
    | _ => rfl

theorem codes_eq : (cs' : List Node) → ∀ {comments : Bool} {cs : List Node},
    SpacedAll guarded name comments cs cs' →
    ∀ {parent : Kind} {operator : Option Kind} {first : Bool},
      Code.ofAll parent operator first cs = Code.ofAll parent operator first cs'
  | [], _, _, h, _, _, _ => by
    cases h
    rfl
  | c' :: cs', _, _, h, parent, operator, first => by
    cases h with
    | keep hc hcs =>
      have hc' : Respaced guarded name _ c' := ⟨_, hc⟩
      rw [Code.ofAll, Code.ofAll, hc'.isToken_eq, hc'.isTrivia_eq, code_eq c' hc, codes_eq cs' hcs]
    | insert hb _ hcs =>
      rw [Code.ofAll, hb.token, hb.trivia, if_pos rfl, Bool.and_true]
      exact codes_eq cs' hcs

theorem operandCode_eq : (cs' : List Node) → ∀ {comments : Bool} {cs : List Node},
    SpacedAll guarded name comments cs cs' → Code.ofOperand cs = Code.ofOperand cs'
  | [], _, _, h => by
    cases h
    rfl
  | c' :: cs', _, _, h => by
    cases h with
    | keep hc hcs =>
      have hc' : Respaced guarded name _ c' := ⟨_, hc⟩
      rw [Code.ofOperand, Code.ofOperand, hc'.isToken_eq, code_eq c' hc, operandCode_eq cs' hcs]
    | insert hb _ hcs =>
      rw [operandCode_eq cs' hcs, Code.ofOperand.eq_2, hb.token, if_pos rfl]

theorem elementCodes_eq : (cs' : List Node) → ∀ {comments : Bool} {cs : List Node},
    SpacedAll guarded name comments cs cs' → Code.ofElements cs = Code.ofElements cs'
  | [], _, _, h => by
    cases h
    rfl
  | ⟨id', kind, token, inner'⟩ :: cs', _, _, h => by
    cases h with
    | @keep _ c _ _ _ hc hcs =>
      obtain ⟨_, hinner⟩ := hc.exists_children
      have hkind := hc.head_eq.2.1
      obtain ⟨id, _, _, inner⟩ := c
      cases hkind
      rw [Code.ofElements, Code.ofElements, elementCodes_eq cs' hcs, codes_eq inner' hinner]
    | insert hb _ hcs =>
      rw [Code.ofElements, if_neg (hb.kind_ne rfl)]
      exact elementCodes_eq cs' hcs

end

end Node

end PhpLint
