import Mathlib.Data.List.Forall2
import Mathlib.Data.List.TakeWhile
import PhpLint.Proofs.Concrete.Sites

/-! Chains of `if`s. Besides its own condition and those of its `elseif`s, an `if` has those of the
`if` that continues its `else`, and so on. Its outline has them all side by side: the `if` behind an
`else` leaves no node, and its alternatives come behind that `else`. -/

namespace PhpLint

namespace Concrete

/-- The number of the body of an `else`: the child in this role, or the first that has a name and is
no comment. -/
def bodyIndex? (x : Concrete) : Option Nat :=
  (x.fieldIndex? "body").or (x.children.findIdx? fun y => y.head.named && y.kind != "comment")

/-- The alternatives of `if`s that stand in the piece belong to `if`s in the piece. -/
inductive Elseless : Concrete → Prop
  | branching {x : Concrete} : x.kind = "if_statement" → Elseless x
  | apart {x : Concrete} : Lower.isAlternative x = false → (∀ y ∈ x.children, Elseless y) →
    Elseless x

theorem Elseless.isAlternative {x : Concrete} (h : x.Elseless) : Lower.isAlternative x = false := by
  cases h with
  | branching hkind =>
    rw [Lower.isAlternative, hkind]
    rfl
  | apart halternative _ => exact halternative

end Concrete

/-- The sites of the parts of a chain, each in the order of the text. -/
structure Chain where
  conditions : List (List Nat)
  /-- The `if`s that continue an `else`. -/
  continued : List (List Nat)
  /-- The `else`s that no `if` continues. -/
  elses : List (List Nat)

namespace Chain

def none : Chain := ⟨[], [], []⟩

/-- What one chain and then another have. -/
def append (a b : Chain) : Chain :=
  ⟨a.conditions ++ b.conditions, a.continued ++ b.continued, a.elses ++ b.elses⟩

end Chain

namespace Treatment

variable {text : List Char} {place : Place} {c x : Concrete} {body : Nat}

theorem of_if (h : c.kind = "if_statement") : of text place c = .ok (.composite .ifStmt) := by
  rw [of, h]
  rfl

theorem of_elseif (h : c.kind = "else_if_clause") :
    of text place c = .ok (.composite .elseIfClause) := by
  rw [of, h]
  rfl

theorem of_condition (h : c.kind = "parenthesized_expression")
    (hplace : place.parentKind ∈ conditionParents) : of text place c = .ok .transparent := by
  rw [of, h]
  exact (if_neg (by decide)).trans (if_pos (by simpa using hplace))

/-- The words and signs in front of a condition. -/
def conditionWords : List String := ["if", "elseif", "else", "("]

theorem of_word (hchildren : c.children = []) (hkind : c.kind ∈ conditionWords) :
    of text place c = ofLeaf text c.head := by
  simp only [conditionWords, List.mem_cons, List.not_mem_nil, or_false] at hkind
  rcases hkind with hkind | hkind | hkind | hkind
  all_goals
    rw [of, hkind]
    exact if_pos (List.isEmpty_iff.2 hchildren)

theorem ofElse_of_body (hbody : c.bodyIndex? = some body) (hx : c.children[body]? = some x)
    (hkind : x.kind = "if_statement") : ofElse c = .elseIf body := by
  rw [Concrete.bodyIndex?] at hbody
  rw [ofElse, hbody]
  exact if_pos (by simp [hx, hkind])

theorem ofElse_of_plain (h : ∀ body x, c.bodyIndex? = some body → c.children[body]? = some x →
    x.kind ≠ "if_statement") : ofElse c = .composite .elseClause := by
  rw [Concrete.bodyIndex?] at h
  rw [ofElse]
  split
  next body hbody =>
    refine if_neg fun hif => ?_
    obtain ⟨x, hx, hkind⟩ := (Option.any_eq_true _ _).1 hif
    exact h body x hbody hx (by simpa using hkind)
  next => rfl

end Treatment

namespace Outline

/-- The site of the first node below, which for an `if` or `elseif` is its condition. -/
def condition? (o : Outline) : Option (List Nat) := o.children.head?.bind (·.site)

/-- Of the nodes, those of an `elseif` and those of an `else` are the ones of a chain, in order. -/
structure Matches (os : List Outline) (chain : Chain) : Prop where
  elseIfs : List.Forall₂ (fun o q => o.condition? = some q) (os.filter (·.kind == .elseIfClause))
    chain.conditions
  elses : List.Forall₂ (fun o q => o.site = some q) (os.filter (·.kind == .elseClause)) chain.elses

/-- The node is that of an `if` with all conditions of a chain, its own first, and all `else`s. -/
structure Carries (o : Outline) (chain : Chain) : Prop where
  kind_eq : o.kind = .ifStmt
  conditions : List.Forall₂ (fun o q => o.condition? = some q)
    (o :: o.children.filter (·.kind == .elseIfClause)) chain.conditions
  elses : List.Forall₂ (fun o q => o.site = some q) (o.children.filter (·.kind == .elseClause))
    chain.elses

variable {o : Outline} {os ps : List Outline} {a b : Chain} {q : List Nat}

theorem matches_none (h : ∀ o ∈ os, o.kind ∉ [Kind.elseIfClause, .elseClause]) :
    Matches os .none := by
  have hfilter : ∀ kind ∈ [Kind.elseIfClause, .elseClause], os.filter (·.kind == kind) = [] :=
    fun kind hkind => List.filter_eq_nil_iff.2 fun o ho heq => h o ho (eq_of_beq heq ▸ hkind)
  refine ⟨?_, ?_⟩
  · rw [hfilter _ (by simp)]
    exact .nil
  · rw [hfilter _ (by simp)]
    exact .nil

theorem matches_elseIf (hkind : o.kind = .elseIfClause) (h : o.condition? = some q) :
    Matches [o] ⟨[q], [], []⟩ := by
  refine ⟨?_, ?_⟩
  · rw [List.filter_singleton, hkind]
    exact .cons h .nil
  · rw [List.filter_singleton, hkind]
    exact .nil

theorem matches_else (hkind : o.kind = .elseClause) (h : o.site = some q) :
    Matches [o] ⟨[], [], [q]⟩ := by
  refine ⟨?_, ?_⟩
  · rw [List.filter_singleton, hkind]
    exact .nil
  · rw [List.filter_singleton, hkind]
    exact .cons h .nil

theorem Matches.append (ha : Matches os a) (hb : Matches ps b) :
    Matches (os ++ ps) (a.append b) := by
  refine ⟨?_, ?_⟩
  · rw [List.filter_append]
    exact List.rel_append ha.elseIfs hb.elseIfs
  · rw [List.filter_append]
    exact List.rel_append ha.elses hb.elses

/-- It does not show which `if`s continue an `else`. -/
theorem Matches.continued (h : Matches os a) (sites : List (List Nat)) :
    Matches os ⟨a.conditions, sites, a.elses⟩ := ⟨h.elseIfs, h.elses⟩

end Outline

namespace Lower

open Outline

variable {s : Source} {late : Bool} {site cond : List Nat} {place : Place} {role : Role}
  {x y : Concrete} {xs front : List Concrete} {o : Outline} {roles : Nat → Role} {parent : Head}
  {prev : Option String} {named : Bool} {i body : Nat} {chain inner : Chain}

/-- The piece makes no node: a word, a sign or a comment. -/
def Silent (s : Source) (x : Concrete) : Prop :=
  ∀ late site place, outline s late site place .plain x = []

/-- In parentheses the piece makes one node, of its own. -/
def Sole (s : Source) (x : Concrete) : Prop :=
  ∀ late site place, place.parentKind = "parenthesized_expression" →
    ∃ o, outline s late site place .plain x = [o] ∧ o.site = some site

/-- The pieces of an `if` or `elseif` at a site, with a condition at another: the first that is no
word is in parentheses, and in there is the condition. -/
inductive Guarded (s : Source) (site : List Nat) : List Concrete → List Nat → Prop
  | mk {front rest before behind : List Concrete} {x y : Concrete} :
    (∀ z ∈ front, Silent s z ∧ isAlternative z = false) →
    x.kind = "parenthesized_expression" → Solid s x → x.head.error = false →
    x.children = before ++ y :: behind → (∀ z ∈ before, Silent s z) → Sole s y →
    Guarded s site (front ++ x :: rest) (site ++ [front.length, before.length])

/-- The pieces of an `if` from number `i` on, `site` being its own, have these alternatives. -/
inductive Alternatives (s : Source) : List Nat → Nat → List Concrete → Chain → Prop
  | nil {site : List Nat} {i : Nat} : Alternatives s site i [] .none
  | aside {site : List Nat} {i : Nat} {x : Concrete} {xs : List Concrete} {chain : Chain} :
    x.Elseless → Alternatives s site (i + 1) xs chain → Alternatives s site i (x :: xs) chain
  | elseif {site cond : List Nat} {i : Nat} {x : Concrete} {xs : List Concrete} {chain : Chain} :
    x.kind = "else_if_clause" → Solid s x → x.head.error = false →
    Guarded s (site ++ [i]) x.children cond → Alternatives s site (i + 1) xs chain →
    Alternatives s site i (x :: xs) (.append ⟨[cond], [], []⟩ chain)
  | elseIf {site cond : List Nat} {i body : Nat} {x y : Concrete} {xs : List Concrete}
    {inner chain : Chain} :
    x.kind = "else_clause" → Solid s x → x.head.error = false →
    x.bodyIndex? = some body → x.children[body]? = some y → y.kind = "if_statement" →
    (∀ z ∈ x.children.take body, Silent s z) →
    Guarded s (site ++ [i, body]) y.children cond →
    Alternatives s (site ++ [i, body]) 0 y.children inner →
    Alternatives s site (i + 1) xs chain →
    Alternatives s site i (x :: xs)
      (.append (.append ⟨[cond], [site ++ [i, body]], []⟩ inner) chain)
  | else {site : List Nat} {i : Nat} {x : Concrete} {xs : List Concrete} {chain : Chain} :
    x.kind = "else_clause" → Solid s x → x.head.error = false →
    (∀ body y, x.bodyIndex? = some body → x.children[body]? = some y → y.kind ≠ "if_statement") →
    Alternatives s site (i + 1) xs chain →
    Alternatives s site i (x :: xs) (.append ⟨[], [], [site ++ [i]]⟩ chain)

/-- The piece at a site is an `if` with this chain: its own condition comes first. -/
inductive HasChain (s : Source) (site : List Nat) (x : Concrete) : Chain → Prop
  | mk {cond : List Nat} {chain : Chain} : x.kind = "if_statement" → x.head.error = false →
    Guarded s site x.children cond → Alternatives s site 0 x.children chain →
    HasChain s site x (.append ⟨[cond], [], []⟩ chain)

/-! ### What makes no alternatives -/

theorem solid_of_mem (h : o ∈ outline s late site place .plain x) : Solid s x :=
  solid_of_outline_ne_nil (List.ne_nil_of_mem h)

/-- What becomes a token makes no node. -/
theorem silent_of_leaf (herror : x.head.error = false)
    (hleaf : ∀ place t, Treatment.of s.text place x = .ok t → ∃ kind, t = .leaf kind) :
    Silent s x := fun late site place => List.eq_nil_iff_forall_not_mem.2 fun o ho => by
  have hsolid := solid_of_mem ho
  cases hof : Treatment.of s.text place x with
  | error fault =>
    rw [hsolid.outline_fault herror hof] at ho
    cases ho
  | ok treatment =>
    obtain ⟨kind, rfl⟩ := hleaf place treatment hof
    rw [hsolid.outline_eq herror hof] at ho
    cases ho

theorem silent_of_word (herror : x.head.error = false) (hchildren : x.children = [])
    (hkind : x.kind ∈ Treatment.conditionWords) : Silent s x :=
  silent_of_leaf herror fun place t hof => by
    rw [Treatment.of_word hchildren hkind] at hof
    exact Treatment.exists_of_ofLeaf hof

theorem silent_of_comment (herror : x.head.error = false) (hkind : x.kind = "comment") :
    Silent s x :=
  silent_of_leaf herror fun place t hof => by
    rw [Treatment.of, hkind] at hof
    cases hof
    exact ⟨_, rfl⟩

/-- A piece that is no alternative makes none, unless its children do. -/
theorem kind_notMem_or_transparent (hx : isAlternative x = false)
    (h : o ∈ outline s late site place .plain x) : o.kind ∉ [Kind.elseIfClause, .elseClause] ∨
      Treatment.of s.text place x = .ok .transparent ∧
        ∃ y ∈ x.children, ∃ site place, o ∈ outline s late site place .plain y := by
  have hsolid := solid_of_mem h
  have hkinds : x.kind ≠ "else_if_clause" ∧ x.kind ≠ "else_clause" := by
    simpa [isAlternative] using hx
  have hself : ∀ {kind : Kind} {os : List Outline}, kind ≠ .elseIfClause ∧ kind ≠ .elseClause →
      o ∈ [⟨kind, some site, late, os⟩] → o.kind ∉ [Kind.elseIfClause, .elseClause] :=
    fun hkind h => by
      rw [List.mem_singleton.1 h]
      simpa using hkind
  cases herror : x.head.error with
  | true =>
    rw [hsolid.outline_error herror] at h
    exact .inl (hself ⟨by decide, by decide⟩ h)
  | false =>
  cases hof : Treatment.of s.text place x with
  | error fault =>
    rw [hsolid.outline_fault herror hof] at h
    cases h
  | ok treatment =>
  have hbranchless := Treatment.of_branchless hof hkinds.1 hkinds.2
  rw [hsolid.outline_eq herror hof] at h
  cases treatment with
  | leaf kind => cases h
  | wrapped | composite | keywordCall => exact .inl (hself hbranchless h)
  | elseIf body => exact hbranchless.elim
  | targets => exact .inl (hself ⟨by decide, by decide⟩ h)
  | transparent =>
    obtain ⟨j, y, place', hy, h⟩ := mem_outlineAll h
    exact .inr ⟨rfl, y, List.mem_of_getElem? hy, _, place', h⟩

theorem kind_notMem_of_elseless (hx : x.Elseless) (h : o ∈ outline s late site place .plain x) :
    o.kind ∉ [Kind.elseIfClause, .elseClause] := by
  induction hx generalizing site place with
  | @branching x hkind =>
    have hx : isAlternative x = false := (Concrete.Elseless.branching hkind).isAlternative
    rcases kind_notMem_or_transparent hx h with h | ⟨hof, -⟩
    · exact h
    · rw [Treatment.of_if hkind] at hof
      cases hof
  | apart hx _ ih =>
    rcases kind_notMem_or_transparent hx h with h | ⟨-, y, hy, site, place, h⟩
    · exact h
    · exact ih y hy h

/-! ### Conditions -/

/-- Pieces at the front that make no node are passed over. -/
theorem exists_outlineAll_append (parent : Head) (roles : Nat → Role) (i : Nat)
    (prev : Option String) (named : Bool) (front xs : List Concrete)
    (h : ∀ (j : Nat) (z : Concrete), front[j]? = some z → ∀ place,
      outline s late (site ++ [i + j]) place (roles (i + j)) z = []) :
    ∃ prev' named', outlineAll s late site parent roles i prev named (front ++ xs) =
      outlineAll s late site parent roles (i + front.length) prev' named' xs := by
  induction front generalizing i prev named with
  | nil => exact ⟨prev, named, rfl⟩
  | cons z front ih =>
    obtain ⟨prev', named', htail⟩ := ih (i + 1) (some z.kind)
      (named || Treatment.isNameKind z.kind) fun j w hw place => by
        rw [show i + 1 + j = i + (j + 1) by omega]
        exact h (j + 1) w hw place
    refine ⟨prev', named', ?_⟩
    rw [List.cons_append, outlineAll, htail, List.length_cons,
      show i + 1 + front.length = i + (front.length + 1) by omega]
    exact congrArg (· ++ _) (h 0 z rfl _)

theorem exists_outlineAll_of_silent (late : Bool) (site : List Nat) (parent : Head)
    (roles : Nat → Role) (xs : List Concrete) (hfront : ∀ z ∈ front, Silent s z)
    (hroles : ∀ j < front.length, roles j = .plain) :
    ∃ prev named, outlineAll s late site parent roles 0 none false (front ++ xs) =
      outlineAll s late site parent roles front.length prev named xs := by
  have hnone : ∀ (j : Nat) (z : Concrete), front[j]? = some z → ∀ place,
      outline s late (site ++ [0 + j]) place (roles (0 + j)) z = [] := fun j z hz place => by
    rw [Nat.zero_add, hroles j (List.getElem?_eq_some_iff.1 hz).1]
    exact hfront z (List.mem_of_getElem? hz) late _ place
  obtain ⟨prev, named, h⟩ := exists_outlineAll_append parent roles 0 none false front xs hnone
  rw [Nat.zero_add] at h
  exact ⟨prev, named, h⟩

/-- The first node that an `if` or `elseif` makes is that of its condition. -/
theorem Guarded.condition (h : Guarded s site xs cond) {kind : String} (hkind : parent.kind = kind)
    (hparent : kind ∈ Treatment.conditionParents)
    (hroles : ∀ j < leadingCount xs, roles j = .plain) :
    (outlineAll s late site parent roles 0 none false xs).head?.bind (·.site) = some cond := by
  cases h with
  | @mk front rest before behind x y hfront hx hsolid herror hchildren hbefore hsole =>
  have halternative : isAlternative x = false := by
    rw [isAlternative, hx]
    rfl
  have hcount : front.length < leadingCount (front ++ x :: rest) := by
    rw [leadingCount, List.takeWhile_append_of_pos (fun z hz => by simp [(hfront z hz).2]),
      List.takeWhile_cons_of_pos (by simp [halternative])]
    simp
  obtain ⟨prev, named, hall⟩ := exists_outlineAll_of_silent late site parent roles (x :: rest)
    (fun z hz => (hfront z hz).1) fun j hj => hroles j (hj.trans hcount)
  have hof : Treatment.of s.text (placeIn parent prev named x rest) x = .ok .transparent :=
    Treatment.of_condition hx (by rwa [← hkind] at hparent)
  obtain ⟨prev', named', hin⟩ := exists_outlineAll_of_silent late (site ++ [front.length]) x.head
    (fun _ => .plain) (y :: behind) hbefore (fun _ _ => rfl)
  obtain ⟨o, ho, hsite⟩ := hsole late (site ++ [front.length] ++ [before.length])
    (placeIn x.head prev' named' y behind) hx
  rw [hall, outlineAll, hroles _ hcount, hsolid.outline_eq herror hof, hchildren, hin, outlineAll,
    ho]
  rw [List.append_assoc] at hsite
  exact hsite

/-! ### Alternatives -/

theorem isAlternative_of_lt_leadingCount (hx : xs[i]? = some x) (hi : i < leadingCount xs) :
    isAlternative x = false := by
  have htake := List.prefix_iff_getElem?.1 (List.takeWhile_prefix (!isAlternative ·)) i hi
  obtain rfl := Option.some.inj (hx.symm.trans htake)
  simpa using List.mem_takeWhile_imp (List.getElem_mem hi)

/-- The first half of an `if` that continues an `else` begins with its condition. -/
theorem Guarded.condition_leading (h : Guarded s (site ++ [body]) y.children cond)
    (hy : x.children[body]? = some y) (hkind : y.kind = "if_statement")
    (hfront : ∀ z ∈ x.children.take body, Silent s z) :
    (outlineAll s late site parent (fun i => if i = body then .leading else .plain) 0 none false
      x.children).head?.bind (·.site) = some cond := by
  obtain ⟨hbody, rfl⟩ := List.getElem?_eq_some_iff.1 hy
  have hlength : (x.children.take body).length = body := List.length_take_of_le hbody.le
  obtain ⟨prev, named, hall⟩ := exists_outlineAll_of_silent late site parent
    (fun i => if i = body then .leading else .plain) (x.children.drop body) hfront
    fun j hj => if_neg (by omega)
  rw [List.take_append_drop, hlength, List.drop_eq_getElem_cons hbody] at hall
  have hcondition : (outlineAll s late (site ++ [body]) x.children[body].head
      (fun i => if i < leadingCount x.children[body].children then .plain else .skip) 0 none false
      x.children[body].children).head?.bind (·.site) = some cond :=
    h.condition hkind (by decide) fun j hj => if_pos hj
  obtain ⟨o, ho, hsite⟩ := Option.bind_eq_some_iff.1 hcondition
  rw [hall, outlineAll, if_pos rfl, outline_leading, List.head?_append, ho]
  exact hsite

/-- Behind the first half the `if` leaves what stands in the second. -/
theorem outlineAll_trailing (hy : x.children[body]? = some y) : ∃ place,
    outlineAll s late site parent (fun i => if i = body then .trailing else .skip) 0 none false
      x.children = outline s late (site ++ [body]) place .trailing y := by
  obtain ⟨hbody, rfl⟩ := List.getElem?_eq_some_iff.1 hy
  have hlength : (x.children.take body).length = body := List.length_take_of_le hbody.le
  have hskip : ∀ {j : Nat} {z : Concrete} {place : Place}, j ≠ body → outline s late (site ++ [j])
      place (if j = body then .trailing else .skip) z = [] := fun hj => by
    rw [if_neg hj, outline_skip]
  obtain ⟨prev, named, hfront⟩ := exists_outlineAll_append parent
    (fun i => if i = body then .trailing else .skip) 0 none false (x.children.take body)
    (x.children.drop body) fun j z hz place => hskip (by
      have hj := (List.getElem?_eq_some_iff.1 hz).1
      omega)
  rw [List.take_append_drop, hlength, List.drop_eq_getElem_cons hbody, Nat.zero_add, outlineAll,
    if_pos rfl] at hfront
  obtain ⟨prev', named', hbehind⟩ := exists_outlineAll_append parent
    (fun i => if i = body then .trailing else .skip) (body + 1) (some x.children[body].kind)
    (named || Treatment.isNameKind x.children[body].kind) (x.children.drop (body + 1)) []
    fun j z hz place => hskip (by omega)
  rw [List.append_nil, outlineAll] at hbehind
  rw [hbehind, List.append_nil] at hfront
  exact ⟨_, hfront⟩

/-- Of the pieces from number `i` on, only such are skipped as are no alternatives. -/
def Kept (roles : Nat → Role) (i : Nat) (xs : List Concrete) : Prop :=
  ∀ (j : Nat) (x : Concrete), xs[j]? = some x →
    roles (i + j) = .plain ∨ roles (i + j) = .skip ∧ isAlternative x = false

namespace Kept

theorem head (h : Kept roles i (x :: xs)) : roles i = .plain ∨
    roles i = .skip ∧ isAlternative x = false := h 0 x rfl

theorem head_of_isAlternative (h : Kept roles i (x :: xs)) (hx : isAlternative x = true) :
    roles i = .plain :=
  h.head.resolve_right fun hskip => by
    rw [hskip.2] at hx
    cases hx

theorem tail (h : Kept roles i (x :: xs)) : Kept roles (i + 1) xs := fun j y hy => by
  rw [show i + 1 + j = i + (j + 1) by omega]
  exact h (j + 1) y hy

end Kept

theorem Alternatives.matches (h : Alternatives s site i xs chain) (hroles : Kept roles i xs) :
    Matches (outlineAll s late site parent roles i prev named xs) chain := by
  induction h generalizing late parent roles prev named with
  | nil =>
    rw [outlineAll]
    exact matches_none (by simp)
  | @aside site i x xs chain hx _ ih =>
    rw [outlineAll]
    refine (matches_none fun o ho => ?_).append (ih hroles.tail)
    rcases hroles.head with hrole | ⟨hrole, -⟩
    · rw [hrole] at ho
      exact kind_notMem_of_elseless hx ho
    · rw [hrole, outline_skip] at ho
      cases ho
  | @elseif site cond i x xs chain hkind hsolid herror hguarded _ ih =>
    rw [outlineAll, hroles.head_of_isAlternative (by simp [isAlternative, hkind]),
      hsolid.outline_eq herror (Treatment.of_elseif hkind)]
    refine (matches_elseIf rfl ?_).append (ih hroles.tail)
    exact hguarded.condition hkind (by decide) fun _ _ => rfl
  | @elseIf site cond i body x y xs inner chain hkind hsolid herror hbody hy hif hfront hguarded _ _
      ihinner ih =>
    have hof : ∀ place, Treatment.of s.text place x = .ok (.elseIf body) := fun place => by
      rw [Treatment.of_else hkind, Treatment.ofElse_of_body hbody hy hif]
    rw [outlineAll, hroles.head_of_isAlternative (by simp [isAlternative, hkind]),
      hsolid.outline_eq herror (hof _)]
    have hsite : site ++ [i, body] = site ++ [i] ++ [body] :=
      (List.append_assoc site [i] [body]).symm
    rw [hsite] at hguarded ihinner
    obtain ⟨place, htrailing⟩ := outlineAll_trailing hy
    refine (((matches_elseIf rfl ?_).continued _).append ?_).append (ih hroles.tail)
    · exact hguarded.condition_leading hy hif hfront
    · rw [htrailing, outline_trailing]
      refine ihinner fun j z hz => ?_
      rw [Nat.zero_add]
      split
      next hj => exact .inr ⟨rfl, isAlternative_of_lt_leadingCount hz hj⟩
      next => exact .inl rfl
  | «else» hkind hsolid herror hbody _ ih =>
    rw [outlineAll, hroles.head_of_isAlternative (by simp [isAlternative, hkind]),
      hsolid.outline_eq herror ((Treatment.of_else hkind).trans
        (congrArg Except.ok (Treatment.ofElse_of_plain hbody)))]
    exact (matches_else rfl rfl).append (ih hroles.tail)

namespace HasChain

theorem outline_eq (h : HasChain s site x chain) (hsolid : Solid s x) :
    outline s late site place .plain x = [⟨.ifStmt, some site, late,
      outlineAll s late site x.head (fun _ => .plain) 0 none false x.children⟩] := by
  obtain ⟨hkind, herror, -, -⟩ := h
  exact hsolid.outline_eq herror (Treatment.of_if hkind)

theorem carries (h : HasChain s site x chain) (ho : o ∈ outline s late site place .plain x) :
    o.Carries chain := by
  rw [h.outline_eq (solid_of_mem ho), List.mem_singleton] at ho
  subst ho
  obtain ⟨hkind, -, hguarded, halternatives⟩ := h
  have hmatches : Matches (outlineAll s late site x.head (fun _ => .plain) 0 none false
      x.children) _ := halternatives.matches fun _ _ _ => .inl rfl
  refine ⟨rfl, .cons ?_ hmatches.elseIfs, hmatches.elses⟩
  exact hguarded.condition hkind (by decide) fun _ _ => rfl

end HasChain

/-! ### The `if`s that continue an `else` -/

/-- At the site stands an `if` that continues an `else`. -/
inductive Continues (root : Concrete) : List Nat → Prop
  | mk {site : List Nat} {x : Concrete} {body : Nat} : root.at? site = some x →
    x.kind = "else_clause" → x.head.error = false → Treatment.ofElse x = .elseIf body →
    Continues root (site ++ [body])

theorem Alternatives.continues {root : Concrete} (h : Alternatives s site i xs chain)
    (hxs : ∀ (j : Nat) (x : Concrete), xs[j]? = some x → root.at? (site ++ [i + j]) = some x) :
    ∀ q ∈ chain.continued, Continues root q := by
  have htail : ∀ {site : List Nat} {i : Nat} {x : Concrete} {xs : List Concrete},
      (∀ (j : Nat) (y : Concrete), (x :: xs)[j]? = some y → root.at? (site ++ [i + j]) = some y) →
      ∀ (j : Nat) (y : Concrete), xs[j]? = some y → root.at? (site ++ [i + 1 + j]) = some y :=
    fun hxs j y hy => by
      rw [Nat.add_right_comm]
      exact hxs (j + 1) y hy
  induction h with
  | nil => simp [Chain.none]
  | aside _ _ ih | elseif _ _ _ _ _ ih | «else» _ _ _ _ _ ih => exact ih (htail hxs)
  | @elseIf site cond i body x y xs inner chain hkind hsolid herror hbody hy hif hfront hguarded _ _
      ihinner ih =>
    have hsite : site ++ [i, body] = site ++ [i] ++ [body] :=
      (List.append_assoc site [i] [body]).symm
    have hx : root.at? (site ++ [i]) = some x := hxs 0 x rfl
    rw [hsite] at ihinner ⊢
    refine List.forall_mem_append.2
      ⟨List.forall_mem_cons.2 ⟨?_, ihinner fun j z hz => ?_⟩, ih (htail hxs)⟩
    · exact ⟨hx, hkind, herror, Treatment.ofElse_of_body hbody hy hif⟩
    · rw [Nat.zero_add, Concrete.at?_child ((Concrete.at?_child hx body).trans hy)]
      exact hz

theorem HasChain.continues {root : Concrete} (h : HasChain s site x chain)
    (hx : root.at? site = some x) : ∀ q ∈ chain.continued, Continues root q := by
  obtain ⟨-, -, -, halternatives⟩ := h
  refine halternatives.continues fun j y hy => ?_
  rw [Nat.zero_add, Concrete.at?_child hx]
  exact hy

/-- No node is made of an `if` that continues an `else`. -/
theorem site_ne_of_continues {root : Concrete} {q : List Nat} (hq : Continues root q)
    (h : o.Among (rootOutline s root).children) : o.site ≠ some q := by
  obtain @⟨site, x, body, hx, hkind, herror, hbody⟩ := hq
  rw [rootOutline] at h
  dsimp only at h
  split at h
  next hprogram =>
    intro hsite
    obtain ⟨i, y, place, hy, h⟩ := among_outlineAll h
    rw [Nat.zero_add, List.nil_append] at h
    obtain ⟨r, -, -, -, hr, -⟩ := exists_piece_of_among h hsite
    cases site with
    | nil =>
      obtain rfl := Option.some.inj hx
      rw [hprogram] at hkind
      exact absurd hkind (by decide)
    | cons k site =>
      obtain ⟨rfl, -⟩ := List.cons_eq_cons.1 hr
      rw [Concrete.at?_cons, hy, Option.bind_some] at hx
      exact site_ne_of_among (by simp) hx hkind herror hbody h hsite
  next => exact site_ne_of_among (by simp) hx hkind herror hbody h

end Lower

end PhpLint
