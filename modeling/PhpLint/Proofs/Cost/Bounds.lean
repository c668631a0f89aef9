import PhpLint.Cost
import PhpLint.Proofs.Tree.Reachable

/-! How large a cost can be. A node adds at most ten to the costs it takes from below, and takes
none of them twice, so a cost is bounded by the size of the subtree. Added up in words of 32 bits,
it comes out right exactly if it fits a word, since no partial sum exceeds the whole. -/

namespace PhpLint

namespace Cost

/-- A number as a word, if it fits one. -/
def word? (n : Nat) : Option UInt32 := if n < 2 ^ 32 then some (.ofNat n) else none

/-- The sum of two words, unless it overflows. -/
def add? (x y : UInt32) : Option UInt32 := word? (x.toNat + y.toNat)

mutual

/-- The rank of an expression, added up in words; none once an addition overflows. -/
def wordCost? (cheap : List String) : Node → Option UInt32
  | ⟨id, kind, token, children⟩ =>
    match kind with
    | .literal | .variableExpr | .nameRef | .classConstFetch | .staticPropertyFetch => some 0
    | .propertyFetch | .unaryExpr | .parenExpr | .castExpr | .postfixExpr =>
      wordFirst? cheap children
    | .arrayAccessExpr => wordAll? cheap 0 children
    | .issetExpr | .emptyExpr => wordArguments? cheap children
    | .callExpr => do
      let arguments ← wordArguments? cheap children
      add? (.ofNat (functionCost cheap ⟨id, .callExpr, token, children⟩)) arguments
    | .methodCallExpr | .staticCallExpr | .newExpr => do
      let arguments ← wordArguments? cheap children
      add? (.ofNat callCost) arguments
    | .binaryExpr | .assignExpr | .ternaryExpr => do
      let operands ← wordAll? cheap 0 children
      add? operands (.ofNat operatorCost)
    | _ => some (.ofNat unknownCost)

/-- The nodes among the children, one after the other added to a sum. -/
def wordAll? (cheap : List String) (sum : UInt32) : List Node → Option UInt32
  | [] => some sum
  | c :: cs =>
    if c.isToken then wordAll? cheap sum cs
    else do
      let first ← wordCost? cheap c
      let sum ← add? sum first
      wordAll? cheap sum cs

/-- The first node among the children. -/
def wordFirst? (cheap : List String) : List Node → Option UInt32
  | [] => some 0
  | c :: cs => if c.isToken then wordFirst? cheap cs else wordCost? cheap c

/-- The arguments in the first argument list among the children. -/
def wordArguments? (cheap : List String) : List Node → Option UInt32
  | [] => some 0
  | ⟨_, kind, _, inner⟩ :: cs =>
    if kind = .argList then wordAll? cheap 0 inner else wordArguments? cheap cs

end

/-! Words. -/

theorem word?_of_lt {n : Nat} (h : n < 2 ^ 32) : word? n = some (.ofNat n) := if_pos h

theorem word?_toNat (w : UInt32) : word? w.toNat = some w := by
  rw [word?_of_lt w.toNat_lt, UInt32.ofNat_toNat]

/-- A sum fits a word only if its parts do, so adding on to a word is adding on to a number. -/
theorem word?_bind_add (m n : Nat) :
    ((word? m).bind fun x => word? (x.toNat + n)) = word? (m + n) := by
  by_cases hm : m < 2 ^ 32
  · rw [word?_of_lt hm, Option.bind_some, UInt32.toNat_ofNat_of_lt' hm]
  · have hsum : ¬ m + n < 2 ^ 32 := fun h => hm (Nat.lt_of_le_of_lt (Nat.le_add_right m n) h)
    simp only [word?, if_neg hm, if_neg hsum, Option.bind_none]

theorem word?_add_left (x : UInt32) (n : Nat) : (word? n).bind (add? x) = word? (x.toNat + n) := by
  rw [Nat.add_comm, ← word?_bind_add]
  simp only [Nat.add_comm]
  rfl

theorem word?_add_right (n : Nat) (x : UInt32) :
    ((word? n).bind fun y => add? y x) = word? (n + x.toNat) :=
  word?_bind_add n x.toNat

theorem functionCost_le (cheap : List String) (n : Node) : functionCost cheap n ≤ callCost := by
  rw [functionCost]
  split
  · exact Nat.zero_le _
  · exact Nat.le_refl _

/-! Adding up in words. -/

mutual

theorem wordCost?_eq (cheap : List String) : (n : Node) → wordCost? cheap n = word? (cost cheap n)
  | ⟨id, kind, token, children⟩ => by
    have hall := wordAll?_eq cheap 0 children
    have hfirst := wordFirst?_eq cheap children
    have harguments := wordArguments?_eq cheap children
    have hsmall := functionCost_le cheap ⟨id, .callExpr, token, children⟩
    rw [UInt32.toNat_zero, Nat.zero_add] at hall
    rw [wordCost?.eq_def]
    dsimp only
    split <;> (rw [cost.eq_def]; dsimp only)
    iterate 5 rfl
    iterate 5 exact hfirst
    · exact hall
    iterate 2 exact harguments
    · rw [harguments]
      refine (word?_add_left _ _).trans ?_
      rw [UInt32.toNat_ofNat_of_lt' (hsmall.trans_lt (by decide))]
    iterate 3
      rw [harguments]
      exact word?_add_left _ _
    iterate 3
      rw [hall]
      exact word?_add_right _ _
    · split
      iterate 20 contradiction
      rfl

theorem wordAll?_eq (cheap : List String) (sum : UInt32) :
    (cs : List Node) → wordAll? cheap sum cs = word? (sum.toNat + costAll cheap cs)
  | [] => (word?_toNat sum).symm
  | c :: cs => by
    rw [wordAll?, costAll]
    split
    · exact wordAll?_eq cheap sum cs
    · have hrest : ∀ w, wordAll? cheap w cs = word? (w.toNat + costAll cheap cs) := fun w =>
        wordAll?_eq cheap w cs
      calc
        _ = ((word? (cost cheap c)).bind (add? sum)).bind fun w =>
            word? (w.toNat + costAll cheap cs) := by
          rw [wordCost?_eq cheap c, Option.bind_assoc]
          simp only [hrest]
          rfl
        _ = word? (sum.toNat + (cost cheap c + costAll cheap cs)) := by
          rw [word?_add_left, word?_bind_add, Nat.add_assoc]

theorem wordFirst?_eq (cheap : List String) :
    (cs : List Node) → wordFirst? cheap cs = word? (costFirst cheap cs)
  | [] => rfl
  | c :: cs => by
    rw [wordFirst?, costFirst]
    split
    · exact wordFirst?_eq cheap cs
    · exact wordCost?_eq cheap c

theorem wordArguments?_eq (cheap : List String) :
    (cs : List Node) → wordArguments? cheap cs = word? (costArguments cheap cs)
  | [] => rfl
  | ⟨_, kind, _, inner⟩ :: cs => by
    rw [wordArguments?, costArguments]
    split
    · rw [wordAll?_eq cheap 0 inner, UInt32.toNat_zero, Nat.zero_add]
    · exact wordArguments?_eq cheap cs

end

/-! The size of a cost. -/

mutual

/-- Every node adds at most ten, and the parts whose costs it takes are apart. -/
theorem cost_le (cheap : List String) : (n : Node) → cost cheap n ≤ 10 * n.preorder.length
  | ⟨id, kind, token, children⟩ => by
    have hall := costAll_le cheap children
    have hfirst := costFirst_le cheap children
    have harguments := costArguments_le cheap children
    have hsmall := functionCost_le cheap ⟨id, .callExpr, token, children⟩
    simp only [callCost] at hsmall
    rw [cost.eq_def, Node.preorder, List.length_cons]
    simp only [callCost, operatorCost, unknownCost]
    split <;> omega

theorem costAll_le (cheap : List String) :
    (cs : List Node) → costAll cheap cs ≤ 10 * (Node.preorderAll cs).length
  | [] => Nat.zero_le _
  | c :: cs => by
    have hfirst := cost_le cheap c
    have hrest := costAll_le cheap cs
    rw [costAll, Node.preorderAll, List.length_append]
    split <;> omega

theorem costFirst_le (cheap : List String) :
    (cs : List Node) → costFirst cheap cs ≤ 10 * (Node.preorderAll cs).length
  | [] => Nat.zero_le _
  | c :: cs => by
    have hfirst := cost_le cheap c
    have hrest := costFirst_le cheap cs
    rw [costFirst, Node.preorderAll, List.length_append]
    split <;> omega

theorem costArguments_le (cheap : List String) :
    (cs : List Node) → costArguments cheap cs ≤ 10 * (Node.preorderAll cs).length
  | [] => Nat.zero_le _
  | ⟨id, kind, token, inner⟩ :: cs => by
    have hinner := costAll_le cheap inner
    have hrest := costArguments_le cheap cs
    rw [costArguments, Node.preorderAll, Node.preorder, List.length_append, List.length_cons]
    split <;> omega

end

end Cost

namespace Tree

open Cost

variable {admits : Tree → NodeId → Prop} {t : Tree} {id : NodeId}

theorem Linked.length_preorder_node (h : t.Linked) (hid : id < t.size) :
    (t.node id).preorder.length = (t.preorder id).length := by
  have hids := h.preorder_eq_ids (h.holds_node hid)
  rw [id_node] at hids
  rw [hids, Node.ids, List.length_map]

/-- On every run the cost of a node is at most ten times the number of nodes of its subtree; in an
arena of fewer than a tenth of all words no addition overflows. -/
theorem Run.cost_fits (h : Run admits t) (cheap : List String) (hid : id < t.size) :
    cost cheap (t.node id) ≤ 10 * (t.preorder id).length ∧
      (10 * t.size < 2 ^ 32 →
        ∃ w, wordCost? cheap (t.node id) = some w ∧ w.toNat = cost cheap (t.node id)) := by
  have hlinked := h.sound.linked
  have hlength := hlinked.length_preorder_node hid
  have hcost := hlength ▸ cost_le cheap (t.node id)
  refine ⟨hcost, fun hsize => ?_⟩
  have hnodes : (t.preorder id).length ≤ t.size := by
    have hids := hlinked.length_ids_le (hlinked.holds_node hid)
    rwa [Node.ids, List.length_map, hlength] at hids
  have hlt : cost cheap (t.node id) < 2 ^ 32 := by omega
  exact ⟨_, (wordCost?_eq cheap _).trans (word?_of_lt hlt), UInt32.toNat_ofNat_of_lt' hlt⟩

/-- The expression `h(!f([]), $x)`. -/
def nestedCalls : Tree :=
  ofEvents [.start .sourceFile, .start .callExpr, .start .nameRef, .token .ident "h", .finish,
    .start .argList, .token .lParen "(", .start .unaryExpr, .token .bang "!", .start .callExpr,
    .start .nameRef, .token .ident "f", .finish, .start .argList, .token .lParen "(",
    .start .arrayExpr, .token .lBrack "[", .token .rBrack "]", .finish, .token .rParen ")",
    .finish, .finish, .finish, .token .comma ",", .start .variableExpr, .token .varName "$x",
    .finish, .token .rParen ")", .finish, .finish, .finish]

theorem cost_fits_of_nestedCalls :
    19 < nestedCalls.size ∧ 10 * nestedCalls.size < 2 ^ 32 ∧
      ∃ w, wordCost? [] (nestedCalls.node 19) = some w ∧ w.toNat = 20 := by
  have hid : 19 < nestedCalls.size := by decide
  have hsize : 10 * nestedCalls.size < 2 ^ 32 := by decide
  have hrun : Run (fun _ _ => False) nestedCalls := .built _
  have hcost : cost [] (nestedCalls.node 19) = 20 := by decide
  exact ⟨hid, hsize, hcost ▸ (hrun.cost_fits [] hid).2 hsize⟩

end Tree

end PhpLint
