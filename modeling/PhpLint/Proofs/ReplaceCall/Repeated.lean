import Mathlib.Data.List.Shortlex
import Mathlib.Logic.Function.Iterate
import PhpLint.Proofs.ReplaceCall.Meaning

/-! One and the same search, several times. In the order that puts shorter texts first, and equally
long ones by their bytes, a replacement moves every text it changes in one direction; so a text that
comes back after a few rounds has not changed at all. -/

namespace PhpLint.ReplaceCall

/-- Shorter texts first, equally long ones by their bytes. -/
abbrev Precedes : Bytes → Bytes → Prop := List.Shortlex (· < ·)

variable {search replacement a b c d text : Bytes} {f : Bytes → Bytes}

theorem Precedes.trans (h : Precedes a b) (h' : Precedes b c) : Precedes a c := by
  rw [Precedes, List.shortlex_def] at *
  rcases h with h | ⟨hlen, h⟩
  · left
    omega
  · rcases h' with h' | ⟨hlen', h'⟩
    · left
      omega
    · exact .inr ⟨hlen.trans hlen', List.lt_trans h h'⟩

theorem Precedes.irrefl (a : Bytes) : ¬ Precedes a a := fun h => Std.Asymm.asymm _ _ h h

theorem precedes_trichotomy (a b : Bytes) : Precedes a b ∨ a = b ∨ Precedes b a := by
  by_cases hlt : Precedes a b
  · exact .inl hlt
  · by_cases hgt : Precedes b a
    · exact .inr (.inr hgt)
    · exact .inr (.inl (Std.Trichotomous.trichotomous _ _ hlt hgt))

theorem lex_append (h : List.Lex (· < ·) a b) (hlen : a.length = b.length) (c d : Bytes) :
    List.Lex (· < ·) (a ++ c) (b ++ d) := by
  induction h with
  | nil => cases hlen
  | cons _ ih => exact .cons (ih (Nat.succ.inj hlen))
  | rel h => exact .rel h

theorem Precedes.length_le (h : Precedes a b) : a.length ≤ b.length := by
  rw [Precedes, List.shortlex_def] at h
  omega

theorem Precedes.append (h : Precedes a b) (h' : c = d ∨ Precedes c d) :
    Precedes (a ++ c) (b ++ d) := by
  have hle : c.length ≤ d.length := by
    rcases h' with rfl | h'
    · exact Nat.le_refl _
    · exact h'.length_le
  rw [Precedes, List.shortlex_def] at *
  rw [List.length_append, List.length_append]
  rcases h with h | ⟨hlen, h⟩
  · left
    omega
  · by_cases hlt : c.length < d.length
    · left
      omega
    · exact .inr ⟨by omega, lex_append h hlen c d⟩

theorem Precedes.cons (h : Precedes a b) (c : UInt8) : Precedes (c :: a) (c :: b) :=
  List.Shortlex.append_left h [c]

/-- A text in which the search is found is moved as the search itself is. -/
theorem moved_of_found (R : Bytes → Bytes → Prop) (hs : search ≠ [])
    (found : ∀ t t', t = t' ∨ R t t' → R (search ++ t) (replacement ++ t'))
    (passed : ∀ c t t', R t t' → R (c :: t) (c :: t')) :
    ∀ text, search <:+: text → R text (replaceAll search replacement text) := by
  refine occurrence_induction search hs ?_ ?_ ?_
  · exact fun h => absurd (List.infix_nil.1 h) hs
  · intro text ih _
    rw [replaceAll_append_self hs]
    refine found _ _ ?_
    by_cases h : search <:+: text
    · exact .inr (ih h)
    · exact .inl (replaceAll_of_absent h).symm
  · intro c text hc ih h
    rw [replaceAll_cons hc]
    exact passed c _ _ (ih ((List.infix_cons_iff.1 h).resolve_left hc))

/-- Every text in which the search is found moves the same way. -/
theorem exists_direction (hs : search ≠ []) (hne : search ≠ replacement) :
    ∃ R : Bytes → Bytes → Prop, (∀ a b c, R a b → R b c → R a c) ∧ (∀ a, ¬ R a a) ∧
      ∀ text, search <:+: text → R text (replaceAll search replacement text) := by
  rcases precedes_trichotomy search replacement with hlt | heq | hgt
  · exact ⟨Precedes, fun _ _ _ => Precedes.trans, Precedes.irrefl,
      moved_of_found Precedes hs (fun _ _ h => hlt.append h) fun c _ _ h => h.cons c⟩
  · exact absurd heq hne
  · exact ⟨fun a b => Precedes b a, fun _ _ _ h h' => h'.trans h, Precedes.irrefl,
      moved_of_found (fun a b => Precedes b a) hs (fun _ _ h => hgt.append (h.imp_left Eq.symm))
        fun c _ _ h => h.cons c⟩

theorem replaceAll_same (text : Bytes) : replaceAll search search text = text := by
  by_cases hs : search = []
  · rw [hs, replaceAll_nil_search]
  · revert text
    refine occurrence_induction search hs replaceAll_nil (fun text ih => ?_) fun c text h ih => ?_
    · rw [replaceAll_append_self hs, ih]
    · rw [replaceAll_cons h, ih]

/-- A search is idle on a text in which it is not found, or where it is replaced by itself. -/
theorem replaceAll_eq_self_iff :
    replaceAll search replacement text = text ↔
      search = [] ∨ search = replacement ∨ ¬ search <:+: text := by
  constructor
  · intro h
    by_contra hmoves
    push Not at hmoves
    obtain ⟨hs, hne, hfound⟩ := hmoves
    obtain ⟨R, -, irrefl, moves⟩ := exists_direction hs hne
    have hmoved := moves text hfound
    rw [h] at hmoved
    exact irrefl text hmoved
  · rintro (rfl | rfl | h)
    · exact replaceAll_nil_search
    · exact replaceAll_same text
    · exact replaceAll_of_absent h

theorem absent_of_replaceAll {c : UInt8} (h : c ∉ replacement) (text : Bytes) :
    ¬ [c] <:+: replaceAll [c] replacement text := by
  have hmem : c ∉ replaceAll [c] replacement text := by
    revert text
    refine occurrence_induction [c] (List.cons_ne_nil c []) ?_ (fun text ih => ?_)
      fun d text hd ih => ?_
    · rw [replaceAll_nil]
      exact List.not_mem_nil
    · rw [replaceAll_append_self (List.cons_ne_nil c []), List.mem_append, not_or]
      exact ⟨h, ih⟩
    · have hne : c ≠ d := fun heq => hd (heq ▸ List.prefix_append [c] text)
      rw [replaceAll_cons hd, List.mem_cons, not_or]
      exact ⟨hne, ih⟩
  exact fun hfound => hmem (hfound.subset (List.mem_singleton_self c))

/-- What moves in one direction only and comes back has never moved. -/
theorem eq_self_of_iterate (R : Bytes → Bytes → Prop) (trans : ∀ a b c, R a b → R b c → R a c)
    (irrefl : ∀ a, ¬ R a a) (moves : ∀ x, f x = x ∨ R x (f x)) {k : Nat}
    (hk : f^[k + 1] text = text) : f text = text := by
  rcases moves text with fixed | moved
  · exact fixed
  · have ahead (k : Nat) : R text (f^[k + 1] text) := by
      induction k with
      | zero => exact moved
      | succ k ih =>
        rw [Function.iterate_succ_apply']
        rcases moves (f^[k + 1] text) with fixed | moved
        · rwa [fixed]
        · exact trans _ _ _ ih moved
    have := ahead k
    rw [hk] at this
    exact absurd this (irrefl text)

theorem replaceAll_eq_self_of_iterate {k : Nat}
    (h : (replaceAll search replacement)^[k + 1] text = text) :
    replaceAll search replacement text = text := by
  by_cases hs : search = []
  · rw [hs, replaceAll_nil_search]
  by_cases hne : search = replacement
  · rw [hne, replaceAll_same]
  obtain ⟨R, trans, irrefl, moves⟩ := exists_direction hs hne
  refine eq_self_of_iterate R trans irrefl (fun x => ?_) h
  by_cases hx : search <:+: x
  · exact .inr (moves x hx)
  · exact .inl (replaceAll_of_absent hx)

theorem replaceEach_replicate (n : Nat) (text : Bytes) :
    replaceEach (List.replicate n (search, replacement)) text =
      (replaceAll search replacement)^[n] text := by
  induction n generalizing text with
  | zero => rfl
  | succ n ih => exact ih (replaceAll search replacement text)

theorem run_many_replicate (n : Nat) :
    run (.many (List.replicate n search)) (.one replacement) =
      (replaceAll search replacement)^[n] := by
  funext text
  rw [run, pairs, Argument.texts, List.map_replicate, replaceEach_replicate]

theorem run_one : run (.one search) (.one replacement) = replaceAll search replacement := rfl

/-- To search once is to search several times where nothing is left to be found after once. -/
theorem run_one_eq_iff {n : Nat} (hn : 0 < n) :
    (∀ x, run (.one search) (.one replacement) x =
        run (.many (List.replicate n search)) (.one replacement) x) ↔
      n = 1 ∨ search = [] ∨ search = replacement ∨
        ∀ x, ¬ search <:+: replaceAll search replacement x := by
  obtain ⟨k, rfl⟩ : ∃ k, n = k + 1 := ⟨n - 1, by omega⟩
  rw [run_one, run_many_replicate]
  constructor
  · intro same
    cases k with
    | zero => exact .inl rfl
    | succ k =>
      -- after one round the others lead back, so they have changed nothing
      have fixed (x : Bytes) : replaceAll search replacement (replaceAll search replacement x) =
          replaceAll search replacement x := by
        refine replaceAll_eq_self_of_iterate (k := k) ?_
        rw [← Function.iterate_succ_apply]
        exact (same x).symm
      by_contra hfound
      push Not at hfound
      obtain ⟨-, hs, hne, x, hx⟩ := hfound
      rcases replaceAll_eq_self_iff.1 (fixed x) with h | h | h
      · exact hs h
      · exact hne h
      · exact h hx
  · intro idle x
    have fixed (hk : k ≠ 0) : replaceAll search replacement (replaceAll search replacement x) =
        replaceAll search replacement x := by
      rw [replaceAll_eq_self_iff]
      rcases idle with h | h | h | h
      · omega
      · exact .inl h
      · exact .inr (.inl h)
      · exact .inr (.inr (h x))
    rw [Function.iterate_succ_apply]
    cases k with
    | zero => rfl
    | succ k => exact (Function.iterate_fixed (fixed (Nat.succ_ne_zero k)) _).symm

end PhpLint.ReplaceCall
