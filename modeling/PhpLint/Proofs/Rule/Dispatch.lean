import PhpLint.Rule.Dispatch
import Mathlib.Data.List.Basic

/-! The table of rules has under each kind the rules that look at it, each once and in the order of
the list, also where rules are repeated in the list or name a kind several times. -/

namespace PhpLint.Dispatch

variable {rules : List Rule} {kind other : Kind} {place : Nat}

theorem places_note (d : Dispatch) (place : Nat) (kind other : Kind) :
    (d.note place kind).places other =
      if other = kind ∧ place ∉ d.places other then d.places other ++ [place]
      else d.places other := by
  rw [note]
  by_cases hplace : place ∈ d.places kind
  · rw [if_pos (List.contains_iff_mem.2 hplace), if_neg]
    rintro ⟨rfl, hnot⟩
    exact hnot hplace
  · rw [if_neg (mt List.contains_iff_mem.1 hplace), places, List.lookup_cons]
    by_cases hkind : other = kind
    · subst hkind
      rw [if_pos ⟨rfl, hplace⟩, beq_self_eq_true]
      rfl
    · rw [if_neg fun h => hkind h.1, beq_false_of_ne hkind]
      rfl

/-- A rule noted under all its kinds stands once under each of them. -/
theorem places_foldl_note (interests : List Kind) (d : Dispatch) (hnew : place ∉ d.places kind) :
    (interests.foldl (·.note place) d).places kind =
      d.places kind ++ if interests.contains kind then [place] else [] := by
  have hnoted : ∀ (interests : List Kind) (d : Dispatch), place ∈ d.places kind →
      (interests.foldl (·.note place) d).places kind = d.places kind := by
    intro interests
    induction interests with
    | nil => exact fun _ _ => rfl
    | cons k interests ih =>
      intro d hmem
      have hstep : (d.note place k).places kind = d.places kind := by
        rw [places_note, if_neg fun h => h.2 hmem]
      rw [List.foldl_cons, ih _ (hstep ▸ hmem), hstep]
  induction interests generalizing d with
  | nil => exact (List.append_nil _).symm
  | cons k interests ih =>
    rw [List.foldl_cons, List.contains_cons]
    by_cases hkind : kind = k
    · have hstep : (d.note place k).places kind = d.places kind ++ [place] := by
        rw [places_note, if_pos ⟨hkind, hnew⟩]
      rw [hnoted _ _ (by simp [hstep]), hstep, hkind, beq_self_eq_true]
      rfl
    · have hstep : (d.note place k).places kind = d.places kind := by
        rw [places_note, if_neg fun h => hkind h.1]
      rw [ih _ (hstep ▸ hnew), hstep, beq_false_of_ne hkind, Bool.false_or]

theorem places_ofRules (rules : List Rule) (kind : Kind) :
    (ofRules rules).places kind =
      (rules.zipIdx.filter fun r => r.1.interests.contains kind).map (·.2) := by
  -- While the rules are gone through, all places in the table lie before the next one.
  have hfold : ∀ (rules : List Rule) (next : Nat) (d : Dispatch), (∀ p ∈ d.places kind, p < next) →
      ((rules.zipIdx next).foldl (fun d r => r.1.interests.foldl (·.note r.2) d) d).places kind =
        d.places kind ++
          ((rules.zipIdx next).filter fun r => r.1.interests.contains kind).map (·.2) := by
    intro rules
    induction rules with
    | nil => exact fun _ _ _ => (List.append_nil _).symm
    | cons r rules ih =>
      intro next d hd
      have hstep := places_foldl_note r.interests d fun hmem => next.lt_irrefl (hd next hmem)
      rw [List.zipIdx_cons, List.foldl_cons, ih (next + 1), hstep, List.filter_cons]
      · split <;> simp
      · intro p hp
        rw [hstep, List.mem_append] at hp
        rcases hp with hp | hp
        · exact Nat.lt_succ_of_lt (hd p hp)
        · split at hp
          · exact List.mem_singleton.1 hp ▸ next.lt_succ_self
          · cases hp
  exact hfold rules 0 empty fun _ hp => by cases hp

theorem exists_rule_of_mem_places (h : place ∈ (ofRules rules).places kind) :
    ∃ r, rules[place]? = some r := by
  rw [places_ofRules] at h
  obtain ⟨r, hr, rfl⟩ := List.mem_map.1 h
  exact ⟨r.1, List.mk_mem_zipIdx_iff_getElem?.1 (List.mem_of_mem_filter hr)⟩

/-- Going through the places of a kind is going through the rules that look at it. -/
theorem flatMap_places {α : Type} (rules : List Rule) (kind : Kind) (f : Rule → List α) :
    (((ofRules rules).places kind).flatMap fun i => match rules[i]? with
      | some r => f r
      | none => []) = (rules.filter (·.interests.contains kind)).flatMap f := by
  have hrules : rules.filter (·.interests.contains kind) =
      (rules.zipIdx.filter fun r => r.1.interests.contains kind).map (·.1) := by
    conv_lhs => rw [← List.zipIdx_map_fst 0 rules, List.filter_map]
    rfl
  rw [places_ofRules, hrules, List.flatMap_map, List.flatMap_map]
  refine List.flatMap_congr fun r hr => ?_
  rw [List.mk_mem_zipIdx_iff_getElem?.1 (List.mem_of_mem_filter hr)]

end PhpLint.Dispatch
