import Mathlib.Data.List.Nodup
import Mathlib.Logic.Relation
import Mathlib.Tactic.Tauto
import PhpLint.Hierarchy.Basic

/-! The ancestors of a class are what its parents lead to. The search takes one name from its queue
at each turn; the queue and the parents of the names not yet taken up grow shorter together, so it
ends, on cyclic entries too. -/

namespace PhpLint.Hierarchy

open Relation

variable {h : Hierarchy} {self m n : String} {queue seen : List String}

/-- The entry of `m` names `n`. -/
def ParentOf (h : Hierarchy) (m n : String) : Prop := n ∈ (h.parents? m).getD []

/-- One turn of the search, from a queue and the names found so far. -/
inductive Turn (h : Hierarchy) (self : String) :
    List String × List String → List String × List String → Prop
  | pass {next : String} {queue seen : List String} :
    next = self ∨ next ∈ seen → Turn h self (next :: queue, seen) (queue, seen)
  | take {next : String} {queue seen : List String} : next ≠ self → next ∉ seen →
    Turn h self (next :: queue, seen) (queue ++ (h.parents? next).getD [], seen ++ [next])

/-! How long a search can take. -/

/-- Number of parents in entries of names that are not among `seen`. -/
def pendingIn (seen : List String) (entries : List (String × List String)) : Nat :=
  ((entries.filter (·.1 ∉ seen)).flatMap (·.2)).length

def pending (h : Hierarchy) (seen : List String) : Nat := pendingIn seen h.parents

theorem pending_nil (h : Hierarchy) : h.pending [] = h.edges := by
  have hall : h.parents.filter (·.1 ∉ ([] : List String)) = h.parents :=
    List.filter_eq_self.2 fun _ _ => decide_eq_true List.not_mem_nil
  rw [pending, pendingIn, hall, edges]

theorem pendingIn_cons (seen : List String) (entry : String × List String)
    (entries : List (String × List String)) :
    pendingIn seen (entry :: entries) =
      (if entry.1 ∈ seen then 0 else entry.2.length) + pendingIn seen entries := by
  rw [pendingIn, List.filter_cons]
  by_cases hmem : entry.1 ∈ seen <;> simp [hmem, pendingIn]

theorem pendingIn_append_le (seen : List String) (next : String)
    (entries : List (String × List String)) :
    pendingIn (seen ++ [next]) entries ≤ pendingIn seen entries := by
  induction entries with
  | nil => exact Nat.le_refl _
  | cons entry entries ih =>
    rw [pendingIn_cons, pendingIn_cons]
    refine Nat.add_le_add ?_ ih
    by_cases hmem : entry.1 ∈ seen
    · simp [hmem]
    · rw [if_neg hmem]
      split
      · exact Nat.zero_le _
      · exact Nat.le_refl _

theorem pendingIn_take {next : String} (hnext : next ∉ seen)
    (entries : List (String × List String)) :
    pendingIn (seen ++ [next]) entries + ((entries.lookup next).getD []).length ≤
      pendingIn seen entries := by
  induction entries with
  | nil => exact Nat.le_refl _
  | cons entry entries ih =>
    rw [pendingIn_cons, pendingIn_cons, List.lookup_cons]
    by_cases heq : entry.1 = next
    · have hle := pendingIn_append_le seen next entries
      simp only [heq, hnext, beq_self_eq_true, Option.getD_some, if_false, List.mem_append,
        List.mem_singleton, or_true, if_true]
      omega
    · have hne : (next == entry.1) = false := beq_false_of_ne (Ne.symm heq)
      simp only [List.mem_append, List.mem_singleton, heq, or_false, hne]
      omega

/-- What a search has still to look at. -/
def remaining (h : Hierarchy) (state : List String × List String) : Nat :=
  state.1.length + h.pending state.2

theorem Turn.remaining_lt {a b : List String × List String} (hturn : h.Turn self a b) :
    h.remaining b < h.remaining a := by
  cases hturn with
  | pass => simp [remaining]
  | take _ hnext =>
    have htake : h.pending (_ ++ [_]) + ((h.parents? _).getD []).length ≤ h.pending _ :=
      pendingIn_take hnext h.parents
    simp only [remaining, List.length_append, List.length_cons]
    omega

/-- No search goes on forever, whatever it starts from. -/
theorem wellFounded_turn (h : Hierarchy) (self : String) :
    WellFounded (Function.swap (h.Turn self)) :=
  Subrelation.wf Turn.remaining_lt (measure h.remaining).wf

/-- With fuel for all that remains, the search goes on until its queue is empty. -/
theorem turns_reach {fuel : Nat} (hfuel : h.remaining (queue, seen) < fuel) :
    ReflTransGen (h.Turn self) (queue, seen) ([], h.reach self fuel queue seen) := by
  induction fuel generalizing queue seen with
  | zero => exact absurd hfuel (Nat.not_lt_zero _)
  | succ fuel ih =>
    cases queue with
    | nil => exact .refl
    | cons next queue =>
      rw [reach]
      split
      next hseen =>
        have hturn : h.Turn self (next :: queue, seen) (queue, seen) := .pass hseen
        exact .head hturn (ih (by have := hturn.remaining_lt; omega))
      next hnew =>
        rw [not_or] at hnew
        have hturn : h.Turn self (next :: queue, seen) _ := .take hnew.1 hnew.2
        exact .head hturn (ih (by have := hturn.remaining_lt; omega))

/-! What a search finds. -/

/-- All that has been come upon lies above `below`, and what lies right above a name taken up has
been come upon. -/
structure Explored (h : Hierarchy) (below : String) (state : List String × List String) : Prop where
  nodup : state.2.Nodup
  below_notMem : below ∉ state.2
  above : ∀ n ∈ state.1 ++ state.2, TransGen h.ParentOf below n
  closed : ∀ m ∈ below :: state.2, ∀ n, h.ParentOf m n → n = below ∨ n ∈ state.1 ++ state.2

theorem explored_start (h : Hierarchy) (self : String) :
    h.Explored self ((h.parents? self).getD [], []) where
  nodup := .nil
  below_notMem := List.not_mem_nil
  above := fun n hn => .single (by rwa [List.append_nil] at hn)
  closed := fun m hm n hn => by
    obtain rfl := List.mem_singleton.1 hm
    exact .inr (by rwa [List.append_nil])

theorem Explored.turn {a b : List String × List String} (ha : h.Explored self a)
    (hturn : h.Turn self a b) : h.Explored self b := by
  cases hturn with
  | @pass next queue seen hseen =>
    refine ⟨ha.nodup, ha.below_notMem, fun n hn => ha.above n (List.mem_cons_of_mem _ hn),
      fun m hm n hn => ?_⟩
    rcases ha.closed m hm n hn with rfl | hmem
    · exact .inl rfl
    · rcases List.mem_cons.1 hmem with rfl | hmem
      · exact hseen.imp_right (List.mem_append_right _)
      · exact .inr hmem
  | @take next queue seen hself hnew =>
    have hnext : TransGen h.ParentOf self next := ha.above next List.mem_cons_self
    refine ⟨?_, ?_, fun n hn => ?_, fun m hm n hn => ?_⟩
    · exact List.nodup_append.2 ⟨ha.nodup, List.nodup_singleton _, fun x hx y hy hxy =>
        hnew (List.mem_singleton.1 hy ▸ hxy ▸ hx)⟩
    · simpa [Ne.symm hself] using ha.below_notMem
    · simp only [List.mem_append, List.mem_singleton] at hn
      rcases hn with (hn | hn) | hn | rfl
      · exact ha.above n (by simp [hn])
      · exact .tail hnext hn
      · exact ha.above n (by simp [hn])
      · exact hnext
    · have hm' : m ∈ self :: seen ∨ m = next := by
        simpa [or_assoc] using hm
      rcases hm' with hm | rfl
      · have hold := ha.closed m hm n hn
        simp only [List.mem_append, List.mem_cons] at hold ⊢
        tauto
      · exact .inr (List.mem_append_left _ (List.mem_append_right _ hn))

theorem Explored.turns {a b : List String × List String} (ha : h.Explored self a)
    (hturns : ReflTransGen (h.Turn self) a b) : h.Explored self b := by
  induction hturns with
  | refl => exact ha
  | tail _ hturn ih => exact ih.turn hturn

/-- With nothing left in the queue, all that lies above has been found. -/
theorem Explored.mem_iff (hdone : h.Explored self ([], seen)) :
    n ∈ seen ↔ n ≠ self ∧ TransGen h.ParentOf self n := by
  refine ⟨fun hn => ⟨fun hself => hdone.below_notMem (hself ▸ hn), hdone.above n hn⟩, ?_⟩
  rintro ⟨hne, hn⟩
  have hall : n ∈ self :: seen := by
    clear hne
    induction hn with
    | single hn => exact List.mem_cons.2 (hdone.closed self List.mem_cons_self _ hn)
    | tail _ hn ih => exact List.mem_cons.2 (hdone.closed _ ih _ hn)
  exact (List.mem_cons.1 hall).resolve_left hne

/-- A class has ancestors exactly if it has an entry. They are found by a search that starts with its
parents and ends, as every search does, with an empty queue: the names that one parent step or more
lead to, the class itself aside, each of them once. -/
theorem ancestors_closure (h : Hierarchy) (name : String) :
    (h.ancestors name = none ↔ h.parents? (ClassName.normalize name) = none) ∧
    WellFounded (Function.swap (h.Turn (ClassName.normalize name))) ∧
    ∀ found, h.ancestors name = some found →
      ReflTransGen (h.Turn (ClassName.normalize name))
        ((h.parents? (ClassName.normalize name)).getD [], []) ([], found) ∧
      found.Nodup ∧
      ∀ n, n ∈ found ↔
        n ≠ ClassName.normalize name ∧ TransGen h.ParentOf (ClassName.normalize name) n := by
  refine ⟨Option.map_eq_none_iff, h.wellFounded_turn _, fun found hfound => ?_⟩
  obtain ⟨direct, hdirect, rfl⟩ := Option.map_eq_some_iff.1 hfound
  have hfuel : h.remaining (direct, []) < direct.length + h.edges + 1 := by
    rw [remaining, pending_nil]
    exact Nat.lt_succ_self _
  have hturns : ReflTransGen (h.Turn (ClassName.normalize name)) (direct, []) _ :=
    turns_reach hfuel
  have hstart := h.explored_start (ClassName.normalize name)
  rw [hdirect, Option.getD_some] at hstart ⊢
  have hdone := hstart.turns hturns
  exact ⟨hturns, hdone.nodup, fun n => hdone.mem_iff⟩

/-- Two classes that extend each other, one of them itself as well, with an interface of which
nothing is known. -/
def eachOther : Hierarchy := ⟨[("a", ["b"]), ("b", ["b", "a", "i"])], [], "", ["a", "b"]⟩

theorem ancestors_closure_eachOther :
    eachOther.ancestors "\\A" = some ["b", "i"] ∧ eachOther.ancestors "i" = none ∧
      ∀ n, n ∈ ["b", "i"] ↔ n ≠ "a" ∧ TransGen eachOther.ParentOf "a" n := by
  have hfound : eachOther.ancestors "\\A" = some ["b", "i"] := by decide +kernel
  have hname : ClassName.normalize "\\A" = "a" := by decide +kernel
  obtain ⟨-, -, hclosure⟩ := ancestors_closure eachOther "\\A"
  obtain ⟨-, -, hmem⟩ := hclosure _ hfound
  rw [hname] at hmem
  exact ⟨hfound, (ancestors_closure eachOther "i").1.2 (by decide +kernel), hmem⟩

end PhpLint.Hierarchy
