import PhpLint.Hierarchy.Basic

/-!
A lookup that remembers its answers: every class in normal form is searched for once.
-/

namespace PhpLint

structure Memo where
  inner : ClassLookup
  cache : List (String × Option (List String))
  deriving Inhabited

namespace Memo

def fresh (inner : ClassLookup) : Memo := ⟨inner, []⟩

/-- The ancestors of a class, and the memo that has them in store. -/
def ancestors (m : Memo) (name : String) : Option (List String) × Memo :=
  let key := ClassName.normalize name
  match m.cache.lookup key with
  | some hit => (hit, m)
  | none =>
    let found := m.inner.ancestors key
    (found, { m with cache := (key, found) :: m.cache })

/-- The memo as a lookup that answers from what it has in store now. -/
def lookup (m : Memo) : ClassLookup := ⟨m.inner.resolve, fun name => (m.ancestors name).1⟩

end Memo

end PhpLint
