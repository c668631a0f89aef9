/-!
Repetitions in a list, by a test that need not be transitive. The first element is compared with
all that follow; those that pass count as its repetitions and are looked at no more.
-/

namespace PhpLint

/-- The elements that repeat an earlier one. `same x y` compares a later `x` with an earlier `y`. -/
def repeated {α : Type} (same : α → α → Bool) : List α → List α
  | [] => []
  | x :: xs => xs.filter (same · x) ++ repeated same (xs.filter (!same · x))
termination_by xs => xs.length
decreasing_by
  simp only [List.unattach_filter, List.unattach_attach, List.length_cons]
  exact Nat.lt_succ_of_le (List.length_filter_le ..)

end PhpLint
