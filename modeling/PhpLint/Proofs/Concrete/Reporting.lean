import PhpLint.Proofs.Concrete.Lossless

/-! What is wrong with a concrete tree is reported by lowering it. Two things are passed over: what
lies in a piece that has no width and is not itself missing, and the marks of an `if` that continues
an `else`, for of that piece only the children are lowered. -/

namespace PhpLint

namespace Concrete

/-- The piece or one below it is missing or an error. -/
inductive Faulty : Concrete → Prop
  | missing {x : Concrete} : x.head.missing = true → Faulty x
  | error {x : Concrete} : x.head.error = true → Faulty x
  | deeper {x y : Concrete} : y ∈ x.children → Faulty y → Faulty x

/-- Every piece is marked as faulty exactly if it is. -/
inductive Marked : Concrete → Prop
  | mk {head : Head} {children : List Concrete} :
    (head.faulty = true ↔ Faulty ⟨head, children⟩) → (∀ c ∈ children, Marked c) →
    Marked ⟨head, children⟩

/-- The children stand one behind the other inside their parent, at every depth. -/
inductive Nested : Concrete → Prop
  | mk {head : Head} {children : List Concrete} :
    (∀ c ∈ children, head.start ≤ c.start ∧ c.stop ≤ head.stop) →
    children.Pairwise (fun c d => c.stop ≤ d.start) → (∀ c ∈ children, Nested c) →
    Nested ⟨head, children⟩

variable {x : Concrete}

@[simp] theorem faulty_mk {head : Head} {children : List Concrete} : Faulty ⟨head, children⟩ ↔
    head.missing = true ∨ head.error = true ∨ ∃ c ∈ children, c.Faulty := by
  constructor
  · rintro (h | h | ⟨hc, h⟩)
    · exact .inl h
    · exact .inr (.inl h)
    · exact .inr (.inr ⟨_, hc, h⟩)
  · rintro (h | h | ⟨c, hc, h⟩)
    · exact .missing h
    · exact .error h
    · exact .deeper hc h

@[simp] theorem marked_mk {head : Head} {children : List Concrete} : Marked ⟨head, children⟩ ↔
    (head.faulty = true ↔ Faulty ⟨head, children⟩) ∧ ∀ c ∈ children, c.Marked :=
  ⟨fun ⟨hfaulty, hchildren⟩ => ⟨hfaulty, hchildren⟩, fun h => .mk h.1 h.2⟩

@[simp] theorem nested_mk {head : Head} {children : List Concrete} : Nested ⟨head, children⟩ ↔
    (∀ c ∈ children, head.start ≤ c.start ∧ c.stop ≤ head.stop) ∧
      children.Pairwise (fun c d => c.stop ≤ d.start) ∧ ∀ c ∈ children, c.Nested :=
  ⟨fun ⟨hin, hpairs, hchildren⟩ => ⟨hin, hpairs, hchildren⟩, fun h => .mk h.1 h.2.1 h.2.2⟩

theorem Marked.faulty_iff (h : x.Marked) : x.head.faulty = true ↔ x.Faulty := by
  obtain ⟨hfaulty, -⟩ := h
  exact hfaulty

theorem Marked.children (h : x.Marked) : ∀ c ∈ x.children, c.Marked := by
  obtain ⟨-, hchildren⟩ := h
  exact hchildren

end Concrete

namespace Treatment

/-- One token, in a node or not. -/
def IsToken : Treatment → Prop
  | .leaf _ | .wrapped .. => True
  | _ => False

/-- An `else` that is no node of its own has an `if` as its body. -/
theorem kind_of_ofElse_eq_elseIf {c x : Concrete} {body : Nat} (h : ofElse c = .elseIf body)
    (hx : c.children[body]? = some x) : x.kind = "if_statement" := by
  unfold ofElse at h
  dsimp only at h
  split at h
  next i hi =>
    split at h
    next hif =>
      cases h
      simpa [hx] using hif
    next => cases h
  next => cases h

theorem ofCall_ne_elseIf (text : List Char) (c : Concrete) (body : Nat) :
    ofCall text c ≠ .elseIf body := by
  unfold ofCall
  split
  · simp
  · dsimp only
    split <;> simp

theorem ofName_ne_elseIf (place : Place) (head : Head) (body : Nat) :
    ofName place head ≠ .elseIf body := by
  unfold ofName
  dsimp only
  split <;> simp

theorem map_scanned_ne_elseIf {text : List Char} {head : Head} {f : Option Kind → Treatment}
    {body : Nat} (hf : ∀ kind, f kind ≠ .elseIf body) :
    (scanned text head).map f ≠ .ok (.elseIf body) := by
  cases scanned text head <;> simp [Except.map, hf]

theorem of_eq_elseIf {text : List Char} {place : Place} {c : Concrete} {body : Nat}
    (h : of text place c = .ok (.elseIf body)) :
    c.kind = "else_clause" ∧ ofElse c = .elseIf body := by
  unfold of at h
  split at h
  all_goals try
    replace h := Except.ok.inj h
    simp [ofName_ne_elseIf, ofCall_ne_elseIf, ite_eq_iff] at h
  next => exact absurd h (map_scanned_ne_elseIf fun _ => by simp)
  next heq => exact ⟨heq, Except.ok.inj h⟩
  next =>
    exfalso
    split at h
    · cases h
    split at h
    · cases h
    split at h
    · cases h
    split at h
    · cases h
    split at h
    · exact map_scanned_ne_elseIf (fun _ => by simp) h
    · cases h

end Treatment

namespace Lower

/-- The piece takes up text behind the base. -/
def Wide (s : Source) (x : Concrete) : Prop := ¬ (x.start = x.stop ∨ x.stop ≤ s.base)

/-- Lowering comes upon something missing or an error in the piece. A piece that is one token is
searched whole. -/
inductive Seen (s : Source) : Concrete → Prop
  | missing {x : Concrete} : x.head.missing = true → Seen s x
  | error {x : Concrete} : Wide s x → x.head.error = true → Seen s x
  | token {x : Concrete} : Wide s x →
    (∀ place treatment, Treatment.of s.text place x = .ok treatment → treatment.IsToken) →
    x.Faulty → Seen s x
  | deeper {x y : Concrete} : Wide s x → y ∈ x.children →
    (x.kind = "else_clause" → y.kind = "if_statement" →
      y.head.missing = false ∧ y.head.error = false) →
    Seen s y → Seen s x

/-- The same for a piece in a role. -/
def RoleSeen (s : Source) : Role → Concrete → Prop
  | .plain, x => Seen s x
  | .skip, _ => False
  | .keyword _, x => x.Faulty
  | .leading, x => ∃ y ∈ x.children.take (leadingCount x.children), Seen s y
  | .trailing, x => ∃ y ∈ x.children.drop (leadingCount x.children), Seen s y

variable {s : Source} {x : Concrete} {xs : List Concrete}

theorem Seen.faulty (h : Seen s x) : x.Faulty := by
  induction h with
  | missing h => exact .missing h
  | error _ h => exact .error h
  | token _ _ h => exact h
  | deeper _ hy _ _ ih => exact .deeper hy ih

/-- Behind an `else` an `if` is seen by one of its two halves. -/
theorem Seen.leading_or_trailing (hseen : Seen s x) (hkind : x.kind = "if_statement")
    (hmissing : x.head.missing = false) (herror : x.head.error = false) :
    RoleSeen s .leading x ∨ RoleSeen s .trailing x := by
  have hof : ∀ place, Treatment.of s.text place x = .ok (.composite .ifStmt) := fun place => by
    rw [Treatment.of, hkind]
    rfl
  have hchild : ∃ y ∈ x.children, Seen s y := by
    cases hseen with
    | missing h => simp [h] at hmissing
    | error _ h => simp [h] at herror
    | token _ h _ => exact (h ⟨none, none, none, false⟩ _ (hof _)).elim
    | deeper _ hy _ h => exact ⟨_, hy, h⟩
  rw [← List.take_append_drop (leadingCount x.children) x.children] at hchild
  simpa only [RoleSeen, List.mem_append, or_and_right, exists_or] using hchild

/-- The errors of a faulty piece, looked for by its marks, are found. -/
theorem errorsBelow_ne_nil (hmarked : x.Marked) (hfaulty : x.Faulty) : errorsBelow s x ≠ [] := by
  induction x using Concrete.induction with
  | mk head children ih =>
    rw [errorsBelow]
    by_cases hmissing : head.missing = true
    · simp [hmissing]
    by_cases herror : head.error = true
    · simp [hmissing, herror]
    rw [if_neg hmissing, if_neg herror, if_pos (hmarked.faulty_iff.2 hfaulty)]
    have hall : ∀ cs : List Concrete, (∃ c ∈ cs, errorsBelow s c ≠ []) →
        errorsBelowAll s cs ≠ [] := by
      intro cs
      induction cs with
      | nil => simp
      | cons c cs ihcs =>
        rintro ⟨d, hd, hne⟩
        rw [errorsBelowAll, Ne, List.append_eq_nil_iff]
        rcases List.mem_cons.1 hd with rfl | hd
        · exact fun h => hne h.1
        · exact fun h => ihcs ⟨d, hd, hne⟩ h.2
    cases hfaulty with
    | missing h => exact absurd h hmissing
    | error h => exact absurd h herror
    | deeper hc h => exact hall children ⟨_, hc, ih _ hc (hmarked.children _ hc) h⟩

/-- Errors stay, and where `p` holds there is one in the end. -/
def Reports {α : Type} (m : Lower α) (p : Prop) : Prop :=
  ∀ c, c.errors ≠ [] ∨ p → (m c).2.errors ≠ []

namespace Reports

variable {α β : Type} {m : Lower α} {p q : Prop}

theorem nothing (a : α) : Reports (pure a) False := fun _ hc => hc.resolve_right id

theorem mono (h : Reports m p) (hpq : q → p) : Reports m q := fun c hc => h c (hc.imp_right hpq)

theorem bind {f : α → Lower β} (hm : Reports m p) (hf : ∀ a, Reports (f a) q) :
    Reports (m >>= f) (p ∨ q) := fun c hc => by
  refine hf (m c).1 (m c).2 ?_
  rw [← or_assoc] at hc
  exact hc.imp_left (hm c)

/-- What is done with a result has no say in the errors. -/
theorem andThen {f : α → β} (h : Reports m p) : Reports (do return f (← m)) p := fun c hc => h c hc

theorem append {α : Type} {m n : Lower (List α)} (hm : Reports m p) (hn : Reports n q) :
    Reports (do let a ← m; let b ← n; return a ++ b) (p ∨ q) := hm.bind fun _ => hn.andThen

theorem report (errors : List ParseError) : Reports (Lower.report errors) (errors ≠ []) :=
  fun c hc => by
    change c.errors ++ errors ≠ []
    rw [Ne, List.append_eq_nil_iff, not_and_or]
    exact hc

theorem note (fault : Token.Fault) : Reports (Lower.note fault) False := nothing ()

theorem cut (stop : Nat) : Reports (Lower.cut stop) False := fun _ hc => hc.resolve_right id

theorem gap (s : Source) (stop : Nat) : Reports (Lower.gap s stop) False := fun c hc => by
  rw [gap_eq]
  split
  · exact hc.resolve_right id
  · exact List.append_ne_nil_of_left_ne_nil (hc.resolve_right id) _

/-- A node of its own around two parts, behind the text in front of them. -/
theorem inside {s : Source} {start stop : Nat} {m : Lower (List Green)} (hm : Reports m p)
    (kind : Kind) :
    Reports (do
      let before ← Lower.gap s start
      let inner ← m
      let after ← Lower.gap s stop
      return before ++ [.node kind (inner ++ after)]) p :=
  ((gap s start).bind fun _ => hm.bind fun _ => (gap s stop).andThen).mono fun hp => .inr (.inl hp)

end Reports

theorem leaf_reports (hmarked : x.Marked) (kind : Kind) : Reports (leaf s kind x) x.Faulty := by
  have htail : Reports (do
      let before ← gap s x.start
      if x.stop ≤ (← get).pos then return before
      return before ++ [.token kind (.ofList (← cut x.stop))]) False := by
    have htoken : ∀ before, Reports (do
        if x.stop ≤ (← get).pos then return before
        return before ++ [Green.token kind (.ofList (← cut x.stop))]) False := fun before c hc => by
      change ((if x.stop ≤ c.pos then _ else _ : Lower _) c).2.errors ≠ []
      split
      · exact hc.resolve_right id
      · exact Reports.cut x.stop c hc
    exact ((Reports.gap s x.start).bind htoken).mono .inl
  rw [leaf]
  split
  next =>
    refine ((Reports.report _).bind fun _ => htail).mono fun hfaulty => ?_
    exact .inl (errorsBelow_ne_nil hmarked hfaulty)
  next hclear => exact htail.mono fun hfaulty => hclear (hmarked.faulty_iff.2 hfaulty)

theorem lowerAll_reports
    (h : ∀ x ∈ xs, ∀ place role, Reports (lower s place role x) (RoleSeen s role x))
    (parent : Head) (role : Nat → Role) (i : Nat) (prev : Option String) (named : Bool) :
    Reports (lowerAll s parent role i prev named xs)
      (∃ (j : Nat) (x : Concrete), xs[j]? = some x ∧ RoleSeen s (role (i + j)) x) := by
  induction xs generalizing i prev named with
  | nil =>
    rw [lowerAll]
    exact (Reports.nothing _).mono (by simp)
  | cons x xs ih =>
    rw [List.forall_mem_cons] at h
    rw [lowerAll]
    refine ((h.1 _ (role i)).append (ih h.2 (i + 1) _ _)).mono ?_
    rintro ⟨j, y, hy, hseen⟩
    cases j with
    | zero =>
      cases hy
      exact .inl hseen
    | succ j => exact .inr ⟨j, y, hy, by rwa [Nat.add_assoc, Nat.add_comm 1]⟩

theorem lowerAll_plain_reports
    (h : ∀ x ∈ xs, ∀ place role, Reports (lower s place role x) (RoleSeen s role x))
    (parent : Head) :
    Reports (lowerAll s parent (fun _ => .plain) 0 none false xs) (∃ x ∈ xs, Seen s x) :=
  (lowerAll_reports h parent _ 0 none false).mono fun ⟨y, hy, hseen⟩ => by
    obtain ⟨j, hj⟩ := List.getElem?_of_mem hy
    exact ⟨j, y, hj, hseen⟩

theorem lowerTargets_reports
    (h : ∀ x ∈ xs, ∀ place role, Reports (lower s place role x) (RoleSeen s role x))
    (parent : Head) (run : Option (List Green)) (prev : Option String) (named : Bool) :
    Reports (lowerTargets s parent run prev named xs) (∃ x ∈ xs, Seen s x) := by
  induction xs generalizing run prev named with
  | nil =>
    rw [lowerTargets]
    exact (Reports.nothing _).mono (by simp)
  | cons x xs ih =>
    rw [List.forall_mem_cons] at h
    have hx := h.1 (placeIn parent prev named x xs) .plain
    have hxs := fun run => ih h.2 run (some x.kind) (named || Treatment.isNameKind x.kind)
    have hsplit : (∃ y ∈ x :: xs, Seen s y) → RoleSeen s .plain x ∨ ∃ y ∈ xs, Seen s y := by
      simp only [List.mem_cons, exists_eq_or_imp, RoleSeen, imp_self]
    rw [lowerTargets.eq_def]
    dsimp only
    by_cases hdelimiter : isDelimiter x = true
    · rw [if_pos hdelimiter]
      exact (hx.bind fun _ => (hxs none).andThen).mono hsplit
    rw [if_neg hdelimiter]
    cases run with
    | some gs => exact (hx.bind fun _ => hxs _).mono hsplit
    | none =>
      by_cases hcomment : x.kind = "comment"
      · simp only [if_pos hcomment]
        exact (hx.bind fun _ => (hxs none).andThen).mono hsplit
      · simp only [if_neg hcomment]
        refine ((Reports.gap s x.start).bind fun _ => hx.bind fun _ => (hxs _).andThen).mono ?_
        exact fun hseen => .inr (hsplit hseen)

theorem lower_plain_reports (hmarked : x.Marked)
    (h : ∀ y ∈ x.children, ∀ place role, Reports (lower s place role y) (RoleSeen s role y))
    (place : Place) : Reports (lower s place .plain x) (Seen s x) := by
  obtain ⟨head, children⟩ := x
  have hleaf : ∀ kind, Reports (leaf s kind ⟨head, children⟩) (Seen s ⟨head, children⟩) :=
    fun kind => (leaf_reports hmarked kind).mono Seen.faulty
  have hall := lowerAll_plain_reports h head
  rw [lower]
  by_cases hmissing : head.missing = true
  · rw [if_pos hmissing]
    refine ((Reports.report [expected s head]).bind fun _ => .nothing _).mono fun _ => ?_
    exact .inl (List.cons_ne_nil _ _)
  rw [if_neg hmissing]
  by_cases hempty : head.start = head.stop ∨ head.stop ≤ s.base
  · rw [if_pos hempty]
    refine (Reports.nothing _).mono fun hseen => ?_
    cases hseen with
    | missing h => exact hmissing h
    | error hwide _ => exact hwide hempty
    | token hwide _ _ => exact hwide hempty
    | deeper hwide _ _ _ => exact hwide hempty
  rw [if_neg hempty]
  by_cases herror : head.error = true
  · rw [if_pos herror]
    refine ((Reports.report _).bind fun _ => hall.inside .errorNode).mono fun _ => ?_
    exact .inl (List.cons_ne_nil _ _)
  rw [if_neg herror]
  -- from here on nothing but a token or a child can have been seen
  have hchild : (¬ ∀ place treatment, Treatment.of s.text place ⟨head, children⟩ = .ok treatment →
      treatment.IsToken) → Seen s ⟨head, children⟩ → ∃ y ∈ children, Seen s y ∧
        (head.kind = "else_clause" → y.kind = "if_statement" →
          y.head.missing = false ∧ y.head.error = false) := by
    intro htoken hseen
    cases hseen with
    | missing h => exact absurd h hmissing
    | error _ h => exact absurd h herror
    | token _ h _ => exact absurd h htoken
    | deeper _ hy hif h => exact ⟨_, hy, h, hif⟩
  split
  next fault hof => exact ((Reports.note fault).bind fun _ => hleaf .errorToken).mono .inr
  next kind hof => exact hleaf kind
  next node token hof =>
    exact ((Reports.gap s _).bind fun _ => (hleaf token).andThen).mono .inr
  next kind hof =>
    refine (hall.inside kind).mono fun hseen => ?_
    obtain ⟨y, hy, hseen, -⟩ := hchild (fun h => h _ _ hof) hseen
    exact ⟨y, hy, hseen⟩
  next hof =>
    refine (hall.append (Reports.gap s _)).mono fun hseen => ?_
    obtain ⟨y, hy, hseen, -⟩ := hchild (fun h => h _ _ hof) hseen
    exact .inl ⟨y, hy, hseen⟩
  next node keyword callee hof =>
    refine ((lowerAll_reports h head _ 0 none false).inside node).mono fun hseen => ?_
    obtain ⟨y, hy, hseen, -⟩ := hchild (fun h => h _ _ hof) hseen
    obtain ⟨j, hj⟩ := List.getElem?_of_mem hy
    refine ⟨j, y, hj, ?_⟩
    split
    · exact hseen.faulty
    · exact hseen
  next body hof =>
    obtain ⟨helse, hofElse⟩ := Treatment.of_eq_elseIf hof
    have hbody : ∀ y, children[body]? = some y → y.kind = "if_statement" := fun _ =>
      Treatment.kind_of_ofElse_eq_elseIf hofElse
    refine ((Reports.gap s _).bind fun _ => (lowerAll_reports h head _ 0 none false).bind fun _ =>
      (lowerAll_reports h head _ 0 none false).andThen).mono fun hseen => .inr ?_
    obtain ⟨y, hy, hseen, hif⟩ := hchild (fun h => h _ _ hof) hseen
    obtain ⟨j, hj⟩ := List.getElem?_of_mem hy
    by_cases hjbody : j = body
    · subst hjbody
      obtain ⟨hmissing, herror⟩ := hif helse (hbody y hj)
      refine (hseen.leading_or_trailing (hbody y hj) hmissing herror).imp ?_ ?_ <;>
        exact fun hhalf => ⟨j, y, hj, by rwa [Nat.zero_add, if_pos rfl]⟩
    · exact .inl ⟨j, y, hj, by rwa [Nat.zero_add, if_neg hjbody]⟩
  next hof =>
    refine ((lowerTargets_reports h head none none false).inside .arrayExpr).mono fun hseen => ?_
    obtain ⟨y, hy, hseen, -⟩ := hchild (fun h => h _ _ hof) hseen
    exact ⟨y, hy, hseen⟩

theorem lower_reports (hmarked : x.Marked) (place : Place) (role : Role) :
    Reports (lower s place role x) (RoleSeen s role x) := by
  induction x using Concrete.induction generalizing place role with
  | mk head children ih =>
    have h : ∀ y ∈ children, ∀ place role, Reports (lower s place role y) (RoleSeen s role y) :=
      fun y hy => ih y hy (hmarked.children y hy)
    cases role with
    | plain => exact lower_plain_reports hmarked h place
    | skip =>
      rw [lower]
      exact .nothing _
    | keyword kind =>
      rw [lower]
      exact leaf_reports hmarked kind
    | leading =>
      rw [lower]
      refine (lowerAll_reports h head _ 0 none false).mono ?_
      rintro ⟨y, hy, hseen⟩
      obtain ⟨i, hi⟩ := List.getElem?_of_mem hy
      rw [List.getElem?_take] at hi
      split at hi
      next hlt => exact ⟨i, y, hi, by rwa [Nat.zero_add, if_pos hlt]⟩
      next => cases hi
    | trailing =>
      rw [lower]
      refine (lowerAll_reports h head _ 0 none false).mono ?_
      rintro ⟨y, hy, hseen⟩
      obtain ⟨i, hi⟩ := List.getElem?_of_mem hy
      rw [List.getElem?_drop] at hi
      exact ⟨_, y, hi, by rwa [Nat.zero_add, if_neg (Nat.not_lt.2 (Nat.le_add_right ..))]⟩

end Lower

end PhpLint
