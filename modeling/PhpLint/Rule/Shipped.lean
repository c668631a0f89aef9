import PhpLint.Rule.CascadeReplace
import PhpLint.Rule.IfConditions
import PhpLint.Rule.LoopAccumulation
import PhpLint.Rule.UnusedMock

/-!
The rules that run by default, in the order in which they report.
-/

namespace PhpLint.Rule

def shipped : List Rule :=
  [LoopAccumulation.rule, CascadeReplace.rule, IfConditions.rule, UnusedMock.rule]

theorem shipped_ids_nodup : (shipped.map (·.id)).Nodup := by decide

end PhpLint.Rule
