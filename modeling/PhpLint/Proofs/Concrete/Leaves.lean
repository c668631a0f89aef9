import PhpLint.Proofs.Concrete.Green
import PhpLint.Proofs.Text.Bytes

/-! A plain syntax tree taken apart: its tokens with their kinds, each at the offset where those
before it end, and its nodes with what stands right below them. -/

namespace PhpLint

namespace Green

mutual

/-- The tokens with their kinds, in order. -/
def leaves : Green → List (Kind × String)
  | token kind text => [(kind, text)]
  | node _ children => leavesAll children

def leavesAll : List Green → List (Kind × String)
  | [] => []
  | g :: gs => leaves g ++ leavesAll gs

end

mutual

/-- The nodes with what stands right below them, each before those further down. -/
def nodes : Green → List (Kind × List Green)
  | token .. => []
  | node kind children => (kind, children) :: nodesAll children

def nodesAll : List Green → List (Kind × List Green)
  | [] => []
  | g :: gs => nodes g ++ nodesAll gs

end

theorem leavesAll_append (a b : List Green) : leavesAll (a ++ b) = leavesAll a ++ leavesAll b := by
  induction a with
  | nil => rfl
  | cons g a ih => rw [List.cons_append, leavesAll, ih, leavesAll, List.append_assoc]

theorem nodesAll_append (a b : List Green) : nodesAll (a ++ b) = nodesAll a ++ nodesAll b := by
  induction a with
  | nil => rfl
  | cons g a ih => rw [List.cons_append, nodesAll, ih, nodesAll, List.append_assoc]

theorem nodesAll_eq_flatMap (gs : List Green) : nodesAll gs = gs.flatMap nodes := by
  induction gs with
  | nil => rfl
  | cons g gs ih => rw [nodesAll, ih, List.flatMap_cons]

mutual

theorem map_snd_leaves : ∀ g : Green, g.leaves.map Prod.snd = g.tokens
  | token _ _ => rfl
  | node _ gs => map_snd_leavesAll gs

theorem map_snd_leavesAll : ∀ gs : List Green, (leavesAll gs).map Prod.snd = tokensAll gs
  | [] => rfl
  | g :: gs => by
    rw [leavesAll, List.map_append, map_snd_leaves g, map_snd_leavesAll gs, tokensAll]

end

/-- Bytes that a run of tokens takes up. -/
def span (ws : List (Kind × String)) : Nat := Text.byteLength (ws.flatMap (·.2.toList))

theorem span_append (a b : List (Kind × String)) : span (a ++ b) = span a + span b := by
  rw [span, List.flatMap_append, Text.byteLength_append, span, span]

theorem span_cons (w : Kind × String) (ws : List (Kind × String)) :
    span (w :: ws) = w.2.utf8ByteSize + span ws := by
  rw [span, List.flatMap_cons, Text.byteLength_append, Text.byteLength_toList, span]

theorem span_leavesAll (gs : List Green) :
    span (leavesAll gs) = Text.byteLength ((tokensAll gs).flatMap String.toList) := by
  rw [← map_snd_leavesAll, span, List.flatMap_map]

/-- Each token has the property at the offset where the tokens before it end. -/
def Along (p : Nat → Kind × String → Prop) : Nat → List (Kind × String) → Prop
  | _, [] => True
  | pos, w :: ws => p pos w ∧ Along p (pos + w.2.utf8ByteSize) ws

variable {p q : Nat → Kind × String → Prop} {pos : Nat} {ws : List (Kind × String)}

theorem along_append {a b : List (Kind × String)} :
    Along p pos (a ++ b) ↔ Along p pos a ∧ Along p (pos + span a) b := by
  induction a generalizing pos with
  | nil => simp [Along, span, Text.byteLength]
  | cons w a ih =>
    simp only [List.cons_append, Along, ih, and_assoc, span_cons, Nat.add_assoc]

theorem Along.mono (h : Along p pos ws) (hpq : ∀ pos w, p pos w → q pos w) : Along q pos ws := by
  induction ws generalizing pos with
  | nil => trivial
  | cons w ws ih => exact ⟨hpq _ _ h.1, ih h.2⟩

theorem along_of_forall (h : ∀ w ∈ ws, ∀ pos, p pos w) : Along p pos ws := by
  induction ws generalizing pos with
  | nil => trivial
  | cons w ws ih =>
    rw [List.forall_mem_cons] at h
    exact ⟨h.1 _, ih h.2⟩

theorem Along.split (h : Along p pos ws) {before after : List (Kind × String)} {w : Kind × String}
    (hws : ws = before ++ w :: after) : p (pos + span before) w := by
  rw [hws, along_append] at h
  exact h.2.1

end Green

end PhpLint
