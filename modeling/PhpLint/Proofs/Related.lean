import Mathlib.Data.List.Forall2

/-! Options and lists whose entries are related one by one. What is read off related entries alike
is read off the whole alike. -/

namespace Option.Rel

variable {α β γ δ : Type} {R : α → β → Prop} {S : γ → δ → Prop} {a : Option α} {b : Option β}

theorem eq_or (h : Option.Rel R a b) :
    a = Option.none ∧ b = Option.none ∨
      ∃ x y, a = Option.some x ∧ b = Option.some y ∧ R x y := by
  cases h with
  | none => exact .inl ⟨rfl, rfl⟩
  | some h => exact .inr ⟨_, _, rfl, rfl, h⟩

theorem exists_of_eq_some (h : Option.Rel R a b) {x : α} (ha : a = Option.some x) :
    ∃ y, b = Option.some y ∧ R x y := by
  cases h with
  | none => cases ha
  | some h =>
    cases ha
    exact ⟨_, rfl, h⟩

theorem eq_none (h : Option.Rel R a b) (ha : a = Option.none) : b = Option.none := by
  cases h with
  | none => rfl
  | some h => cases ha

theorem any_eq (h : Option.Rel R a b) {p : α → Bool} {q : β → Bool}
    (hpq : ∀ {x y}, R x y → p x = q y) : a.any p = b.any q := by
  cases h with
  | none => rfl
  | some h => exact hpq h

theorem map_eq (h : Option.Rel R a b) {f : α → γ} {g : β → γ} (hfg : ∀ {x y}, R x y → f x = g y) :
    a.map f = b.map g := by
  cases h with
  | none => rfl
  | some h => exact congrArg Option.some (hfg h)

theorem bind_eq (h : Option.Rel R a b) {f : α → Option γ} {g : β → Option γ}
    (hfg : ∀ {x y}, R x y → f x = g y) : a.bind f = b.bind g := by
  cases h with
  | none => rfl
  | some h => exact hfg h

theorem map (h : Option.Rel R a b) {f : α → γ} {g : β → δ} (hfg : ∀ {x y}, R x y → S (f x) (g y)) :
    Option.Rel S (a.map f) (b.map g) := by
  cases h with
  | none => exact .none
  | some h => exact .some (hfg h)

theorem bind (h : Option.Rel R a b) {f : α → Option γ} {g : β → Option δ}
    (hfg : ∀ {x y}, R x y → Option.Rel S (f x) (g y)) : Option.Rel S (a.bind f) (b.bind g) := by
  cases h with
  | none => exact .none
  | some h => exact hfg h

theorem filter (h : Option.Rel R a b) {p : α → Bool} {q : β → Bool}
    (hpq : ∀ {x y}, R x y → p x = q y) : Option.Rel R (a.filter p) (b.filter q) := by
  cases h with
  | none => exact .none
  | @some x y h =>
    rw [Option.filter_some, Option.filter_some, hpq h]
    split
    · exact .some h
    · exact .none

theorem isSome_eq (h : Option.Rel R a b) : a.isSome = b.isSome := by
  cases h <;> rfl

theorem toList (h : Option.Rel R a b) : List.Forall₂ R a.toList b.toList := by
  cases h with
  | none => exact .nil
  | some h => exact .cons h .nil

end Option.Rel

namespace List.Forall₂

variable {α β γ δ : Type} {R : α → β → Prop} {S : γ → δ → Prop} {xs : List α} {ys : List β}
  {us : List γ} {vs : List δ}

theorem filter_of_eq (h : Forall₂ R xs ys) {p : α → Bool} {q : β → Bool}
    (hpq : ∀ {x y}, R x y → p x = q y) : Forall₂ R (xs.filter p) (ys.filter q) :=
  List.rel_filter (fun _ _ hxy => Bool.eq_iff_iff.1 (hpq hxy)) h

theorem map_eq (h : Forall₂ R xs ys) {f : α → γ} {g : β → γ} (hfg : ∀ {x y}, R x y → f x = g y) :
    xs.map f = ys.map g := by
  rw [← List.forall₂_eq_eq_eq, List.forall₂_map_left_iff, List.forall₂_map_right_iff]
  exact h.imp fun _ _ => hfg

theorem filterMap_eq (h : Forall₂ R xs ys) {f : α → Option γ} {g : β → Option γ}
    (hfg : ∀ {x y}, R x y → f x = g y) : xs.filterMap f = ys.filterMap g := by
  induction h with
  | nil => rfl
  | cons hxy _ ih => rw [List.filterMap_cons, List.filterMap_cons, hfg hxy, ih]

theorem mapM_eq (h : Forall₂ R xs ys) {f : α → Option γ} {g : β → Option γ}
    (hfg : ∀ {x y}, R x y → f x = g y) : xs.mapM f = ys.mapM g := by
  induction h with
  | nil => rfl
  | cons hxy _ ih => rw [List.mapM_cons, List.mapM_cons, hfg hxy, ih]

theorem any_eq (h : Forall₂ R xs ys) {p : α → Bool} {q : β → Bool}
    (hpq : ∀ {x y}, R x y → p x = q y) : xs.any p = ys.any q := by
  induction h with
  | nil => rfl
  | cons hxy _ ih => rw [List.any_cons, List.any_cons, hpq hxy, ih]

theorem getElem? (h : Forall₂ R xs ys) (i : Nat) : Option.Rel R xs[i]? ys[i]? := by
  induction h generalizing i with
  | nil => exact .none
  | cons hxy _ ih =>
    cases i with
    | zero => exact .some hxy
    | succ i => exact ih i

theorem head? (h : Forall₂ R xs ys) : Option.Rel R xs.head? ys.head? := by
  rw [List.head?_eq_getElem?, List.head?_eq_getElem?]
  exact h.getElem? 0

theorem getLast? (h : Forall₂ R xs ys) : Option.Rel R xs.getLast? ys.getLast? := by
  rw [List.getLast?_eq_getElem?, List.getLast?_eq_getElem?, h.length_eq]
  exact h.getElem? _

theorem find? (h : Forall₂ R xs ys) {p : α → Bool} {q : β → Bool}
    (hpq : ∀ {x y}, R x y → p x = q y) : Option.Rel R (xs.find? p) (ys.find? q) := by
  rw [← List.head?_filter, ← List.head?_filter]
  exact (h.filter_of_eq hpq).head?

theorem takeWhile (h : Forall₂ R xs ys) {p : α → Bool} {q : β → Bool}
    (hpq : ∀ {x y}, R x y → p x = q y) : Forall₂ R (xs.takeWhile p) (ys.takeWhile q) := by
  induction h with
  | nil => exact .nil
  | cons hxy _ ih =>
    rw [List.takeWhile_cons, List.takeWhile_cons, hpq hxy]
    split
    · exact .cons hxy ih
    · exact .nil

theorem and_mem (h : Forall₂ R xs ys) : Forall₂ (fun x y => R x y ∧ x ∈ xs ∧ y ∈ ys) xs ys := by
  induction h with
  | nil => exact .nil
  | cons hxy _ ih =>
    refine .cons ⟨hxy, List.mem_cons_self, List.mem_cons_self⟩ (ih.imp fun _ _ h => ?_)
    exact ⟨h.1, List.mem_cons_of_mem _ h.2.1, List.mem_cons_of_mem _ h.2.2⟩

theorem zip (h : Forall₂ R xs ys) (h' : Forall₂ S us vs) :
    Forall₂ (fun p q => R p.1 q.1 ∧ S p.2 q.2) (xs.zip us) (ys.zip vs) := by
  induction h generalizing us vs with
  | nil => exact .nil
  | cons hxy _ ih =>
    cases h' with
    | nil => exact .nil
    | cons huv h' => exact .cons ⟨hxy, huv⟩ (ih h')

theorem trans_of {P : β → γ → Prop} {Q : α → γ → Prop} (h : Forall₂ R xs ys) (h' : Forall₂ P ys us)
    (hQ : ∀ {x y u}, R x y → P y u → Q x u) : Forall₂ Q xs us := by
  induction h generalizing us with
  | nil =>
    cases h'
    exact .nil
  | cons hxy _ ih =>
    cases h' with
    | cons hyu h' => exact .cons (hQ hxy hyu) (ih h')

theorem map_of (h : Forall₂ R xs ys) {f : α → γ} {g : β → δ}
    (hfg : ∀ {x y}, R x y → S (f x) (g y)) : Forall₂ S (xs.map f) (ys.map g) :=
  List.rel_map (fun _ _ hxy => hfg hxy) h

theorem flatMap_of (h : Forall₂ R xs ys) {f : α → List γ} {g : β → List δ}
    (hfg : ∀ {x y}, R x y → Forall₂ S (f x) (g y)) : Forall₂ S (xs.flatMap f) (ys.flatMap g) :=
  List.rel_flatMap h fun _ _ hxy => hfg hxy

theorem filterMap_of (h : Forall₂ R xs ys) {f : α → Option γ} {g : β → Option δ}
    (hfg : ∀ {x y}, R x y → Option.Rel S (f x) (g y)) :
    Forall₂ S (xs.filterMap f) (ys.filterMap g) :=
  List.rel_filterMap (fun _ _ hxy => hfg hxy) h

end List.Forall₂
