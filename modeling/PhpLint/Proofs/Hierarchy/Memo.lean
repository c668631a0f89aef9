import PhpLint.Hierarchy.Memo

/-! A memo answers every name the same whatever it was asked before, so those who share one cannot
tell that they do. -/

namespace PhpLint.Memo

variable {m m' : Memo} {classes lookup : ClassLookup} {name : String}

/-- `Asked m m'`: what was `m` is `m'` after some names, none or many, have been asked of it. -/
inductive Asked : Memo → Memo → Prop
  | refl (m : Memo) : Asked m m
  | ask {m m' : Memo} (name : String) : Asked m m' → Asked m (m'.ancestors name).2

theorem Asked.trans {n : Memo} (h : Asked m m') (h' : Asked m' n) : Asked m n := by
  induction h' with
  | refl => exact h
  | ask name _ ih => exact .ask name ih

/-- Whoever holds the memo while others ask it too: each name is answered as the memo stands at some
later moment. -/
structure Serves (m : Memo) (lookup : ClassLookup) : Prop where
  resolve_eq : lookup.resolve = m.inner.resolve
  exists_answer : ∀ name, ∃ m', Asked m m' ∧ lookup.ancestors name = (m'.ancestors name).1

theorem serves_lookup (m : Memo) : m.Serves m.lookup :=
  ⟨rfl, fun _ => ⟨m, .refl m, rfl⟩⟩

/-- The memo stands before `classes`, and has nothing in store but what those answer. -/
structure Faithful (m : Memo) (classes : ClassLookup) : Prop where
  inner_eq : m.inner = classes
  stored : ∀ {key answer}, m.cache.lookup key = some answer → classes.ancestors key = answer

theorem faithful_fresh (classes : ClassLookup) : (fresh classes).Faithful classes :=
  ⟨rfl, fun h => by cases h⟩

namespace Faithful

theorem ancestors_eq (h : m.Faithful classes) (name : String) :
    (m.ancestors name).1 = classes.ancestors (ClassName.normalize name) := by
  rw [ancestors]
  split
  · next hit hhit => exact (h.stored hhit).symm
  · rw [h.inner_eq]

theorem ask (h : m.Faithful classes) (name : String) : (m.ancestors name).2.Faithful classes := by
  rw [ancestors]
  split
  · exact h
  · refine ⟨h.inner_eq, fun {key answer} hkey => ?_⟩
    rw [List.lookup_cons] at hkey
    split at hkey
    · next heq =>
      rw [eq_of_beq heq, ← h.inner_eq]
      exact Option.some.inj hkey
    · exact h.stored hkey

theorem asked (h : m.Faithful classes) (hm : Asked m m') : m'.Faithful classes := by
  induction hm with
  | refl => exact h
  | ask name _ ih => exact ih.ask name

theorem lookup_eq (h : m.Faithful classes) (hserves : m.Serves lookup) :
    lookup = (fresh classes).lookup := by
  have hancestors : lookup.ancestors = (fresh classes).lookup.ancestors := funext fun name => by
    obtain ⟨m', hm', hanswer⟩ := hserves.exists_answer name
    rw [hanswer, (h.asked hm').ancestors_eq]
    exact ((faithful_fresh classes).ancestors_eq name).symm
  have hresolve : lookup.resolve = (fresh classes).lookup.resolve := by
    rw [hserves.resolve_eq, h.inner_eq]
    rfl
  cases lookup
  cases hresolve
  cases hancestors
  rfl

end Faithful

end PhpLint.Memo
