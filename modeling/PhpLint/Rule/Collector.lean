import PhpLint.Rule.Basic

/-!
A collector of findings that counts along how many each rule has made.
-/

namespace PhpLint

structure Collector where
  findings : List Finding
  perRule : List (String × Nat)
  deriving Inhabited

namespace Collector

def empty : Collector := ⟨[], []⟩

/-- One more for a rule. -/
def tally (rule : String) : List (String × Nat) → List (String × Nat)
  | [] => [(rule, 1)]
  | (id, n) :: rest => if id = rule then (id, n + 1) :: rest else (id, n) :: tally rule rest

def report (c : Collector) (found : Finding) : Collector :=
  ⟨c.findings ++ [found], tally found.rule c.perRule⟩

def reportAll (c : Collector) (found : List Finding) : Collector := found.foldl report c

def count (c : Collector) (rule : String) : Nat := (c.perRule.lookup rule).getD 0

/-- Findings per rule, the rules in alphabetical order. -/
def summary (c : Collector) : String :=
  if c.perRule.isEmpty then "no findings"
  else ", ".intercalate ((c.perRule.mergeSort fun a b => a.1 ≤ b.1).map fun (rule, n) =>
    rule ++ ": " ++ toString n)

end Collector

namespace Finding

def count (findings : List Finding) (rule : String) : Nat :=
  (Collector.empty.reportAll findings).count rule

def summary (findings : List Finding) : String := (Collector.empty.reportAll findings).summary

end Finding

end PhpLint
