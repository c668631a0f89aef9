import PhpLint.Fix.Apply
import PhpLint.Proofs.Tree.Versions

/-! Plans that succeed lead from a tree to a later one. A fix that is brought to the later tree is
carried out only where its handles are good there. -/

namespace PhpLint

theorem exists_of_bind_eq_ok {ε α β : Type} {x : Except ε α} {f : α → Except ε β} {b : β}
    (h : (x >>= f) = .ok b) : ∃ a, x = .ok a ∧ f a = .ok b := by
  cases x with
  | error e => cases h
  | ok a => exact ⟨a, rfl, h⟩

theorem Tree.graft_lt_size (t : Tree) (n : Node) : (t.graft n).2 < (t.graft n).1.size := by
  cases n
  rw [graft_eq, size_grow]
  exact Nat.lt_succ_self _

variable {grammar : Grammar} {t u : Tree}

namespace Edit

theorem left_of_structurally {α : Type} {edit : TreeEdit α} (h : structurally edit t = .ok u) :
    Tree.left edit t = u := by
  rw [structurally] at h
  split at h
  next a v hrun =>
    have hedit : edit t = .ok a v := hrun
    rw [Tree.left, hedit]
    exact Except.ok.inj h
  next => cases h

theorem step_of_graft {text : String} {kind : FragmentKind} {grown : Tree × NodeId}
    (h : graft grammar t text kind = .ok grown) :
    Tree.Step t grown.1 ∧ grown.2 < grown.1.size := by
  rw [graft] at h
  split at h
  next fragment _ =>
    cases h
    exact ⟨.graft _, t.graft_lt_size _⟩
  next => cases h
  next => cases h

theorem later_of_apply {e : Edit} (h : e.apply grammar t = .ok u) : Tree.Later t u := by
  cases e with
  | insertSibling anchor after kind text =>
    rw [apply] at h
    split at h
    next => cases h
    next =>
      split at h
      next => cases h
      next parent _ =>
        obtain ⟨grown, hgraft, hinsert⟩ := exists_of_bind_eq_ok h
        obtain ⟨hstep, hlt⟩ := step_of_graft hgraft
        exact .tail (.single hstep) (left_of_structurally hinsert ▸ .insert parent _ hlt)
  | replace target kind text =>
    rw [apply] at h
    split at h
    next => cases h
    next =>
      obtain ⟨grown, hgraft, hreplace⟩ := exists_of_bind_eq_ok h
      obtain ⟨hstep, hlt⟩ := step_of_graft hgraft
      exact .tail (.single hstep) (left_of_structurally hreplace ▸ .replace target hlt)
  | delete target =>
    rw [apply] at h
    split at h
    next => cases h
    next => exact .single (left_of_structurally h ▸ .remove target)

theorem later_of_foldlM {edits : List Edit} (h : edits.foldlM (Edit.apply grammar) t = .ok u) :
    Tree.Later t u := by
  induction edits generalizing t with
  | nil =>
    cases h
    exact .refl
  | cons e edits ih =>
    rw [List.foldlM_cons] at h
    obtain ⟨staged, hedit, hrest⟩ := exists_of_bind_eq_ok h
    exact (later_of_apply hedit).trans (ih hrest)

end Edit

namespace EditPlan

/-- From one tree to another by plans that all succeed. -/
def Leads (grammar : Grammar) : Tree → Tree → Prop :=
  Relation.ReflTransGen fun t u => ∃ (plan : EditPlan) (applied : AppliedFix),
    plan.apply grammar t = .ok (u, applied)

theorem foldlM_of_apply {plan : EditPlan} {applied : AppliedFix}
    (h : plan.apply grammar t = .ok (u, applied)) :
    plan.edits.foldlM (Edit.apply grammar) t = .ok u := by
  rw [apply] at h
  split at h
  next => cases h
  next staged hstaged =>
    split at h
    next => cases h
    next =>
      cases h
      exact hstaged

theorem Leads.later (h : Leads grammar t u) : Tree.Later t u := by
  induction h with
  | refl => exact .refl
  | tail _ hplan ih =>
    obtain ⟨plan, applied, hplan⟩ := hplan
    exact ih.trans (Edit.later_of_foldlM (foldlM_of_apply hplan))

end EditPlan

namespace Fix

variable {fix : Fix}

/-- The first handle that is no longer good is the one that is named. -/
theorem apply_of_stale (grammar : Grammar) {h : Handle} (hh : h ∈ fix.handles)
    (hstale : t.isValid h = false) : ∃ h ∈ fix.handles, t.isValid h = false ∧
      fix.apply grammar t = .error (.invalidated h.id) := by
  have hsome : (fix.handles.find? (!t.isValid ·)).isSome := by
    rw [List.find?_isSome]
    exact ⟨h, hh, by simp [hstale]⟩
  obtain ⟨first, hfirst⟩ := Option.isSome_iff_exists.1 hsome
  have hinvalid := List.find?_some hfirst
  refine ⟨first, List.mem_of_find?_eq_some hfirst, by simpa using hinvalid, ?_⟩
  rw [apply, plan, hfirst]

theorem isValid_of_apply {result : Tree × AppliedFix} (h : fix.apply grammar t = .ok result)
    {handle : Handle} (hh : handle ∈ fix.handles) : t.isValid handle = true := by
  by_contra hstale
  obtain ⟨_, -, -, herror⟩ := apply_of_stale grammar hh (Bool.eq_false_iff.2 hstale)
  rw [herror] at h
  cases h

end Fix

end PhpLint
