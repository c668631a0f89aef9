import Mathlib.Logic.Relation
import Mathlib.Order.WellFounded
import PhpLint.Proofs.Tree.Slots

/-! The links of an arena of slots: who stands under whom. Child lists, parents and places say the
same, and going down ends everywhere. Text, flags and versions play no part here. -/

namespace PhpLint.Tree

/-- `c` stands directly under `p`. -/
def Under (t : Tree) (c p : NodeId) : Prop := t.parent? c = some p

/-- `c` is `top` or stands somewhere below it. -/
def Within (t : Tree) : NodeId → NodeId → Prop := Relation.ReflTransGen t.Under

structure Linked (t : Tree) : Prop where
  mem_children : ∀ {p c : NodeId}, c ∈ t.children p ↔ t.Under c p
  nodup : ∀ p : NodeId, (t.children p).Nodup
  index_eq : ∀ {p c : NodeId}, t.Under c p → t.index c = (t.children p).idxOf c
  wellFounded : WellFounded t.Under

variable {t u : Tree} {c d p q top x : NodeId}

theorem parent?_of_size_le (h : t.size ≤ c) : t.parent? c = none := by
  rw [parent?, slot_of_size_le h]
  rfl

theorem children_of_size_le (h : t.size ≤ p) : t.children p = [] := by
  rw [children, slot_of_size_le h]
  rfl

theorem Under.lt_size (h : t.Under c p) : c < t.size := by
  by_contra hc
  rw [Under, parent?_of_size_le (Nat.le_of_not_lt hc)] at h
  cases h

theorem Under.parent_unique (h : t.Under c p) (h' : t.Under c q) : p = q :=
  Option.some.inj (h.symm.trans h')

namespace Within

theorem refl (t : Tree) (x : NodeId) : t.Within x x := Relation.ReflTransGen.refl

theorem of_under (h : t.Under c p) : t.Within c p := Relation.ReflTransGen.single h

theorem trans (h : t.Within c p) (h' : t.Within p top) : t.Within c top :=
  Relation.ReflTransGen.trans h h'

/-- Two nodes with a common node below stand one within the other. -/
theorem total (h : t.Within x p) (h' : t.Within x q) : t.Within p q ∨ t.Within q p :=
  Relation.ReflTransGen.total_of_right_unique (fun _ _ _ => Under.parent_unique) h h'

theorem eq_or_under (h : t.Within c top) : c = top ∨ ∃ p, t.Under c p ∧ t.Within p top := by
  rcases Relation.ReflTransGen.cases_head h with rfl | ⟨p, hp, h⟩
  · exact .inl rfl
  · exact .inr ⟨p, hp, h⟩

/-- Standing within a node other than `c` itself is standing within by way of the parent. -/
theorem of_parent (h : t.Within c top) (hp : t.Under c p) (hne : c ≠ top) : t.Within p top := by
  rcases h.eq_or_under with rfl | ⟨q, hq, h⟩
  · exact absurd rfl hne
  · exact hp.parent_unique hq ▸ h

theorem lt_size (h : t.Within c top) (htop : top < t.size) : c < t.size := by
  rcases h.eq_or_under with rfl | ⟨p, hp, -⟩
  · exact htop
  · exact hp.lt_size

end Within

namespace Linked

theorem parent_lt_size (h : t.Linked) (hu : t.Under c p) : p < t.size := by
  by_contra hp
  have hc := h.mem_children.2 hu
  rw [children_of_size_le (Nat.le_of_not_lt hp)] at hc
  cases hc

theorem lt_size_of_mem (h : t.Linked) (hc : c ∈ t.children p) : c < t.size :=
  (h.mem_children.1 hc).lt_size

theorem getElem?_index (h : t.Linked) (hu : t.Under c p) :
    (t.children p)[t.index c]? = some c := by
  rw [h.index_eq hu]
  exact List.getElem?_idxOf (h.mem_children.2 hu)

/-- What a child list shows at a place is a child whose own record names that list and place. -/
theorem getElem?_eq_some_iff (h : t.Linked) {i : Nat} :
    (t.children p)[i]? = some c ↔ t.Under c p ∧ t.index c = i := by
  constructor
  · intro hc
    have hu := h.mem_children.1 (List.mem_of_getElem? hc)
    obtain ⟨hi, rfl⟩ := List.getElem?_eq_some_iff.1 hc
    exact ⟨hu, (h.index_eq hu).trans ((h.nodup p).idxOf_getElem i hi)⟩
  · rintro ⟨hu, rfl⟩
    exact h.getElem?_index hu

theorem not_within_of_under (h : t.Linked) (hu : t.Under c p) : ¬ t.Within p c := fun hw =>
  h.wellFounded.transGen.irrefl.irrefl c (Relation.TransGen.head' hu hw)

theorem within_antisymm (h : t.Linked) (hc : t.Within c p) (hp : t.Within p c) : c = p := by
  cases hc.eq_or_under with
  | inl he => exact he
  | inr hu =>
    obtain ⟨q, hu, hq⟩ := hu
    exact absurd (hq.trans hp) (h.not_within_of_under hu)

/-- Trees with the same child lists, parents and places are linked alike. -/
theorem congr (h : t.Linked) (hc : ∀ n, u.children n = t.children n)
    (hp : ∀ n, u.parent? n = t.parent? n) (hi : ∀ n, u.index n = t.index n) : u.Linked := by
  have hu : u.Under = t.Under := by
    funext c p
    rw [Under, Under, hp]
  refine ⟨fun {p c} => ?_, fun p => ?_, fun {p c} hcp => ?_, ?_⟩
  · rw [hc, hu]
    exact h.mem_children
  · exact hc p ▸ h.nodup p
  · rw [hi, hc]
    exact h.index_eq (hu ▸ hcp)
  · exact hu ▸ h.wellFounded

end Linked

/-- A linked tree whose flags fit: the root stands under nobody and is attached, and a node is
attached exactly when its parent is. -/
structure Sound (t : Tree) : Prop where
  linked : t.Linked
  root_lt_size : t.root < t.size
  parent?_root : t.parent? t.root = none
  isAttached_root : t.isAttached t.root = true
  isAttached_eq : ∀ {c p : NodeId}, t.Under c p → t.isAttached c = t.isAttached p

theorem Sound.isAttached_of_within (h : t.Sound) (hw : t.Within c top) :
    t.isAttached c = t.isAttached top := by
  induction hw using Relation.ReflTransGen.head_induction_on with
  | refl => rfl
  | head hu _ ih => exact (h.isAttached_eq hu).trans ih

theorem Sound.ne_root_of_under (h : t.Sound) (hu : t.Under c p) : c ≠ t.root := by
  rintro rfl
  rw [Under, h.parent?_root] at hu
  cases hu

/-- Tokens are leaves. -/
def Bare (t : Tree) : Prop := ∀ id, t.isToken id → t.children id = []

end PhpLint.Tree
