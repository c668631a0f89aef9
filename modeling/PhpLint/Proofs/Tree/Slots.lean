import Mathlib.Data.List.Nodup
import PhpLint.Tree.Edit

/-! Slots read one at a time. Writing down a list of places changes each slot that is named, once,
and no other; a new node stands behind all slots that were there and changes its children only. -/

namespace PhpLint

namespace Slots

def get (slots : Array Slot) (id : NodeId) : Slot := slots[id]?.getD default

theorem get_of_size_le {slots : Array Slot} {id : NodeId} (h : slots.size ≤ id) :
    get slots id = default := by
  rw [get, Array.getElem?_eq_none h, Option.getD_none]

theorem get_modify {slots : Array Slot} {id : NodeId} (h : id < slots.size) (f : Slot → Slot)
    (n : NodeId) : get (slots.modify id f) n = if n = id then f (get slots n) else get slots n := by
  simp only [get, Array.getElem?_modify]
  by_cases hn : id = n
  · subst hn
    simp [h]
  · rw [if_neg hn, if_neg (Ne.symm hn)]

theorem get_push (slots : Array Slot) (s : Slot) (n : NodeId) :
    get (slots.push s) n = if n = slots.size then s else get slots n := by
  simp only [get, Array.getElem?_push]
  split <;> rfl

variable {α : Type} {key : α → NodeId} {f : α → Slot → Slot}

theorem size_foldl_modify (slots : Array Slot) (l : List α) :
    (l.foldl (fun slots a => slots.modify (key a) (f a)) slots).size = slots.size := by
  induction l generalizing slots with
  | nil => rfl
  | cons a l ih => rw [List.foldl_cons, ih, Array.size_modify]

theorem get_foldl_modify_of_notMem {slots : Array Slot} {l : List α} {n : NodeId}
    (h : n ∉ l.map key) (hs : ∀ a ∈ l, key a < slots.size) :
    get (l.foldl (fun slots a => slots.modify (key a) (f a)) slots) n = get slots n := by
  induction l generalizing slots with
  | nil => rfl
  | cons a l ih =>
    rw [List.map_cons, List.mem_cons, not_or] at h
    have ha := hs a List.mem_cons_self
    rw [List.foldl_cons, ih h.2 (by simpa using fun b hb => hs b (List.mem_cons_of_mem a hb)),
      get_modify ha, if_neg h.1]

theorem get_foldl_modify_of_mem {slots : Array Slot} {l : List α} {a : α}
    (hl : (l.map key).Nodup) (hs : ∀ a ∈ l, key a < slots.size) (ha : a ∈ l) :
    get (l.foldl (fun slots a => slots.modify (key a) (f a)) slots) (key a) =
      f a (get slots (key a)) := by
  induction l generalizing slots with
  | nil => cases ha
  | cons b l ih =>
    have hb := hs b List.mem_cons_self
    have hs' : ∀ a ∈ l, key a < (slots.modify (key b) (f b)).size := by
      simpa using fun a ha => hs a (List.mem_cons_of_mem b ha)
    rw [List.map_cons, List.nodup_cons] at hl
    rw [List.foldl_cons]
    rcases List.mem_cons.1 ha with rfl | ha
    · rw [get_foldl_modify_of_notMem hl.1 hs', get_modify hb, if_pos rfl]
    · have hne : key a ≠ key b := fun h => hl.1 (h ▸ List.mem_map_of_mem ha)
      rw [ih hl.2 hs' ha, get_modify hb, if_neg hne]

/-- What `f` leaves alone in a slot stays as it was, wherever it is applied. -/
theorem proj_foldl_modify {β : Type} (g : Slot → β) (hg : ∀ a s, g (f a s) = g s)
    (slots : Array Slot) (l : List α) (n : NodeId) :
    g (get (l.foldl (fun slots a => slots.modify (key a) (f a)) slots) n) = g (get slots n) := by
  induction l generalizing slots with
  | nil => rfl
  | cons a l ih =>
    rw [List.foldl_cons, ih, get, get, Array.getElem?_modify]
    split
    · cases slots[n]? with
      | none => rfl
      | some s => exact hg a s
    · rfl

/-- Each of `children` is given its place among them. -/
theorem get_foldl_zipIdx {slots : Array Slot} {children : List NodeId} (h : children.Nodup)
    (hs : ∀ c ∈ children, c < slots.size) (g : Nat → Slot → Slot) (n : NodeId) :
    get (children.zipIdx.foldl (fun slots c => slots.modify c.1 (g c.2)) slots) n =
      if n ∈ children then g (children.idxOf n) (get slots n) else get slots n := by
  have hkey : children.zipIdx.map Prod.fst = children := List.zipIdx_map_fst ..
  have hnodup : (children.zipIdx.map Prod.fst).Nodup := by rwa [hkey]
  have hs' : ∀ c ∈ children.zipIdx, c.1 < slots.size := fun c hc =>
    hs c.1 (hkey ▸ List.mem_map_of_mem hc)
  by_cases hn : n ∈ children
  · have hmem : (n, children.idxOf n) ∈ children.zipIdx := by
      rw [List.mk_mem_zipIdx_iff_getElem?]
      exact List.getElem?_idxOf hn
    rw [if_pos hn]
    exact get_foldl_modify_of_mem (f := fun c => g c.2) hnodup hs' hmem
  · rw [if_neg hn]
    exact get_foldl_modify_of_notMem (f := fun c => g c.2) (by rwa [hkey]) hs'

theorem get_adopt {slots : Array Slot} {children : List NodeId} (h : children.Nodup)
    (hs : ∀ c ∈ children, c < slots.size) (parent n : NodeId) :
    get (adopt slots parent children) n =
      if n ∈ children then { get slots n with parent := some parent, index := children.idxOf n }
      else get slots n :=
  get_foldl_zipIdx h hs (fun i s => { s with parent := some parent, index := i }) n

theorem get_alloc {slots : Array Slot} {children : List NodeId} (h : children.Nodup)
    (hs : ∀ c ∈ children, c < slots.size) (kind : Kind) (text : Option String) (attached : Bool)
    (n : NodeId) :
    get (alloc slots kind text children attached) n =
      if n = slots.size then ⟨kind, text, none, children, 0, 0, attached⟩
      else if n ∈ children then
        { get slots n with parent := some slots.size, index := children.idxOf n }
      else get slots n := by
  rw [alloc, get_push, size_adopt, get_adopt h hs]

end Slots

namespace Tree

variable {t : Tree} {id n : NodeId}

theorem slot_eq_get (t : Tree) (id : NodeId) : t.slot id = Slots.get t.slots id := rfl

theorem slot_of_size_le (h : t.size ≤ id) : t.slot id = default := Slots.get_of_size_le h

@[simp] theorem size_update (t : Tree) (id : NodeId) (f : Slot → Slot) :
    (t.update id f).size = t.size := Array.size_modify ..

@[simp] theorem root_update (t : Tree) (id : NodeId) (f : Slot → Slot) :
    (t.update id f).root = t.root := rfl

theorem slot_update (h : id < t.size) (f : Slot → Slot) (n : NodeId) :
    (t.update id f).slot n = if n = id then f (t.slot n) else t.slot n :=
  Slots.get_modify h f n

theorem foldl_update {α : Type} (key : α → NodeId) (f : α → Slot → Slot) (t : Tree) (l : List α) :
    l.foldl (fun t a => t.update (key a) (f a)) t =
      { t with slots := l.foldl (fun slots a => slots.modify (key a) (f a)) t.slots } := by
  induction l generalizing t with
  | nil => rfl
  | cons a l ih => rw [List.foldl_cons, ih]; rfl

theorem slot_foldl_update {l : List NodeId} (hl : l.Nodup) (hs : ∀ n ∈ l, n < t.size)
    (f : Slot → Slot) (n : NodeId) :
    (l.foldl (fun t n => t.update n f) t).slot n = if n ∈ l then f (t.slot n) else t.slot n := by
  rw [foldl_update (fun n => n) (fun _ => f)]
  split
  next h => exact Slots.get_foldl_modify_of_mem (by simpa using hl) hs h
  next h => exact Slots.get_foldl_modify_of_notMem (by simpa using h) hs

theorem size_foldl_update (f : Slot → Slot) (t : Tree) (l : List NodeId) :
    (l.foldl (fun t n => t.update n f) t).size = t.size := by
  rw [foldl_update (fun n => n) (fun _ => f)]
  exact Slots.size_foldl_modify ..

theorem root_foldl_update (f : Slot → Slot) (t : Tree) (l : List NodeId) :
    (l.foldl (fun t n => t.update n f) t).root = t.root := by
  rw [foldl_update (fun n => n) (fun _ => f)]

theorem proj_foldl_update {β : Type} (g : Slot → β) {f : Slot → Slot} (hg : ∀ s, g (f s) = g s)
    (t : Tree) (l : List NodeId) (n : NodeId) :
    g ((l.foldl (fun t n => t.update n f) t).slot n) = g (t.slot n) := by
  rw [foldl_update (fun n => n) (fun _ => f)]
  exact Slots.proj_foldl_modify g (fun _ => hg) t.slots l n

theorem proj_reindex {β : Type} (g : Slot → β) (hg : ∀ s i, g { s with index := i } = g s)
    (t : Tree) (parent n : NodeId) : g ((t.reindex parent).slot n) = g (t.slot n) := by
  rw [reindex, foldl_update Prod.fst fun c s => { s with index := c.2 }]
  exact Slots.proj_foldl_modify g (fun (c : NodeId × Nat) s => hg s c.2) t.slots _ n

theorem slot_reindex {parent : NodeId} (h : (t.children parent).Nodup)
    (hs : ∀ c ∈ t.children parent, c < t.size) (n : NodeId) :
    (t.reindex parent).slot n =
      if n ∈ t.children parent then { t.slot n with index := (t.children parent).idxOf n }
      else t.slot n := by
  rw [reindex, foldl_update Prod.fst fun c s => { s with index := c.2 }]
  exact Slots.get_foldl_zipIdx h hs (fun i s => { s with index := i }) n

@[simp] theorem size_reindex (t : Tree) (parent : NodeId) : (t.reindex parent).size = t.size := by
  rw [reindex, foldl_update Prod.fst fun c s => { s with index := c.2 }]
  exact Slots.size_foldl_modify ..

@[simp] theorem root_reindex (t : Tree) (parent : NodeId) : (t.reindex parent).root = t.root := by
  rw [reindex, foldl_update Prod.fst fun c s => { s with index := c.2 }]

end Tree

end PhpLint
