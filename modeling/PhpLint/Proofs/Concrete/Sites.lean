import PhpLint.Proofs.Concrete.Outline
import PhpLint.Proofs.Concrete.Shapes

/-! Where the nodes of an outline come from. A piece hands each of its children a role, and every
node below it is its own or that of a child in this role. So a node with a site is the node of the
piece there, and the `if` behind an `else` has none. -/

namespace PhpLint

/-- An outline is one of these or stands somewhere below one of them. -/
inductive Outline.Among (o : Outline) : List Outline → Prop
  | here {os : List Outline} : o ∈ os → Among o os
  | deeper {p : Outline} {os : List Outline} : p ∈ os → Among o p.children → Among o os

namespace Outline

variable {o p : Outline} {os ps : List Outline}

/-- The node is made of no single piece: an `else` that goes on with an `if`, or an element of
destructuring targets. -/
structure Pieced (o : Outline) : Prop where
  site_eq : o.site = none
  kind_mem : o.kind ∈ [Kind.elseIfClause, .arrayElement]

@[simp] theorem not_among_nil : ¬ Among o [] := by
  rintro (h | ⟨h, -⟩) <;> cases h

@[simp] theorem among_cons : Among o (p :: os) ↔ o = p ∨ Among o p.children ∨ Among o os := by
  constructor
  · rintro (h | ⟨h, hbelow⟩)
    · exact (List.mem_cons.1 h).imp_right fun h => .inr (.here h)
    · rcases List.mem_cons.1 h with rfl | h
      · exact .inr (.inl hbelow)
      · exact .inr (.inr (.deeper h hbelow))
  · rintro (rfl | h | h)
    · exact .here List.mem_cons_self
    · exact .deeper List.mem_cons_self h
    · rcases h with h | ⟨h, hbelow⟩
      · exact .here (List.mem_cons_of_mem p h)
      · exact .deeper (List.mem_cons_of_mem p h) hbelow

@[simp] theorem among_append : Among o (os ++ ps) ↔ Among o os ∨ Among o ps := by
  induction os with
  | nil => simp
  | cons p os ih => rw [List.cons_append, among_cons, ih, among_cons, or_assoc, or_assoc]

theorem among_iff : Among o os ↔ ∃ p ∈ os, Among o [p] := by
  constructor
  · rintro (h | ⟨hp, h⟩)
    · exact ⟨o, h, .here List.mem_cons_self⟩
    · exact ⟨_, hp, .deeper List.mem_cons_self h⟩
  · rintro ⟨p, hp, h | ⟨hq, h⟩⟩
    · exact .here (List.mem_singleton.1 h ▸ hp)
    · exact .deeper (List.mem_singleton.1 hq ▸ hp) h

theorem Among.child (h : Among o os) (hp : p ∈ o.children) : Among p os := by
  induction h with
  | here ho => exact .deeper ho (.here hp)
  | deeper hq _ ih => exact .deeper hq ih

end Outline

theorem Treatment.of_else {text : List Char} {place : Place} {c : Concrete}
    (h : c.kind = "else_clause") : of text place c = .ok (ofElse c) := by
  rw [of, h]
  rfl

/-- The child number `i` is lowered as it stands. -/
def Treatment.Passes (i : Nat) : Treatment → Prop
  | .leaf _ | .wrapped .. => False
  | .composite _ | .transparent | .targets => True
  | .keywordCall _ _ callee => i ≠ callee
  | .elseIf body => i ≠ body

namespace Lower

open Outline

variable {s : Source} {late late' : Bool} {site : List Nat} {place : Place} {role role' : Role}
  {x y : Concrete} {xs : List Concrete} {o : Outline} {i : Nat}

/-- Something of the piece is lowered: it is there, and not all of it lies before the base. -/
structure Solid (s : Source) (x : Concrete) : Prop where
  missing : x.head.missing = false
  wide : x.start ≠ x.stop
  behind : s.base < x.stop

theorem solid_of_outline_ne_nil (h : outline s late site place .plain x ≠ []) : Solid s x := by
  obtain ⟨head, children⟩ := x
  rw [outline] at h
  by_cases hmissing : head.missing = true
  · rw [if_pos hmissing] at h
    exact absurd rfl h
  by_cases hempty : head.start = head.stop ∨ head.stop ≤ s.base
  · rw [if_neg hmissing, if_pos hempty] at h
    exact absurd rfl h
  exact ⟨Bool.eq_false_iff.2 hmissing, fun h => hempty (.inl h),
    Nat.lt_of_not_le fun h => hempty (.inr h)⟩

namespace Solid

variable {kind : Kind} {body : Nat}

theorem outline_error (h : Solid s x) (herror : x.head.error = true) :
    outline s late site place .plain x = [⟨.errorNode, some site, late,
      outlineAll s late site x.head (fun _ => .plain) 0 none false x.children⟩] := by
  obtain ⟨head, children⟩ := x
  rw [outline, if_neg (by simpa using h.missing),
    if_neg (not_or.2 ⟨h.wide, Nat.not_le_of_lt h.behind⟩),
    if_pos herror]

theorem outline_fault (h : Solid s x) (herror : x.head.error = false) {fault : Token.Fault}
    (hof : Treatment.of s.text place x = .error fault) :
    outline s late site place .plain x = [] := by
  obtain ⟨head, children⟩ := x
  rw [outline, if_neg (by simpa using h.missing),
    if_neg (not_or.2 ⟨h.wide, Nat.not_le_of_lt h.behind⟩),
    if_neg (by simpa using herror), hof]

theorem outline_eq (h : Solid s x) (herror : x.head.error = false) {t : Treatment} :
    Treatment.of s.text place x = .ok t → outline s late site place .plain x = match t with
      | .leaf _ => []
      | .wrapped node _ => [⟨node, some site, late, []⟩]
      | .composite kind => [⟨kind, some site, late,
          outlineAll s late site x.head (fun _ => .plain) 0 none false x.children⟩]
      | .transparent => outlineAll s late site x.head (fun _ => .plain) 0 none false x.children
      | .keywordCall node keyword callee => [⟨node, some site, late, outlineAll s late site x.head
          (fun i => if i = callee then .keyword keyword else .plain) 0 none false x.children⟩]
      | .elseIf body =>
        ⟨.elseIfClause, none, late, outlineAll s late site x.head
            (fun i => if i = body then .leading else .plain) 0 none false x.children⟩
          :: outlineAll s (late || body + 1 < x.children.length) site x.head
            (fun i => if i = body then .trailing else .skip) 0 none false x.children
      | .targets => [⟨.arrayExpr, some site, late,
          outlineTargets s late site x.head none 0 none false x.children⟩] := fun hof => by
  obtain ⟨head, children⟩ := x
  rw [outline, if_neg (by simpa using h.missing),
    if_neg (not_or.2 ⟨h.wide, Nat.not_le_of_lt h.behind⟩),
    if_neg (by simpa using herror), hof]
  cases t <;> rfl

end Solid

/-- The role in which a piece has the child number `i` lowered, and whether that is late. -/
inductive Hands (s : Source) (place : Place) (x : Concrete) (late : Bool) :
    Role → Nat → Bool → Role → Prop
  | leading {i : Nat} : i < leadingCount x.children → Hands s place x late .leading i late .plain
  | trailing {i : Nat} : leadingCount x.children ≤ i → Hands s place x late .trailing i late .plain
  | error {i : Nat} : Solid s x → x.head.error = true → Hands s place x late .plain i late .plain
  | child {t : Treatment} {i : Nat} : Solid s x → x.head.error = false →
    Treatment.of s.text place x = .ok t → t.Passes i → Hands s place x late .plain i late .plain
  | body {body : Nat} : Solid s x → x.head.error = false →
    Treatment.of s.text place x = .ok (.elseIf body) → Hands s place x late .plain body late .leading
  | rest {body : Nat} : Solid s x → x.head.error = false →
    Treatment.of s.text place x = .ok (.elseIf body) →
    Hands s place x late .plain body (late || body + 1 < x.children.length) .trailing

theorem mem_outlineAll {parent : Head} {roles : Nat → Role} {prev : Option String} {named : Bool}
    (h : o ∈ outlineAll s late site parent roles i prev named xs) :
    ∃ j y place, xs[j]? = some y ∧
      o ∈ outline s late (site ++ [i + j]) place (roles (i + j)) y := by
  induction xs generalizing i prev named with
  | nil =>
    rw [outlineAll] at h
    cases h
  | cons x xs ih =>
    rw [outlineAll, List.mem_append] at h
    rcases h with h | h
    · exact ⟨0, x, _, rfl, h⟩
    · obtain ⟨j, y, place, hy, h⟩ := ih h
      rw [show i + 1 + j = i + (j + 1) by omega] at h
      exact ⟨j + 1, y, place, hy, h⟩

theorem among_outlineAll {parent : Head} {roles : Nat → Role} {prev : Option String} {named : Bool}
    (h : o.Among (outlineAll s late site parent roles i prev named xs)) :
    ∃ j y place, xs[j]? = some y ∧
      o.Among (outline s late (site ++ [i + j]) place (roles (i + j)) y) := by
  obtain ⟨p, hp, ho⟩ := among_iff.1 h
  obtain ⟨j, y, place, hy, hp⟩ := mem_outlineAll hp
  exact ⟨j, y, place, hy, among_iff.2 ⟨p, hp, ho⟩⟩

theorem among_outlineElement {run : Option (List Outline)} (h : o.Among (outlineElement late run)) :
    (o.Pieced ∧ o.late = late) ∨ o.Among (run.getD []) := by
  cases run with
  | none => exact absurd h not_among_nil
  | some run =>
    rcases among_cons.1 h with rfl | h | h
    · exact .inl ⟨⟨rfl, by simp⟩, rfl⟩
    · exact .inr h
    · exact absurd h not_among_nil

theorem among_outlineTargets {parent : Head} {run : Option (List Outline)} {prev : Option String}
    {named : Bool} (h : o.Among (outlineTargets s late site parent run i prev named xs)) :
    ((o.Pieced ∧ o.late = late) ∨ o.Among (run.getD [])) ∨
      ∃ j y place, xs[j]? = some y ∧ o.Among (outline s late (site ++ [i + j]) place .plain y) := by
  induction xs generalizing i run prev named with
  | nil =>
    rw [outlineTargets] at h
    exact .inl (among_outlineElement h)
  | cons x xs ih =>
    have hfirst : ∀ {place : Place}, o.Among (outline s late (site ++ [i]) place .plain x) →
        ∃ j y place, (x :: xs)[j]? = some y ∧
          o.Among (outline s late (site ++ [i + j]) place .plain y) := fun h => ⟨0, x, _, rfl, h⟩
    have hothers : ∀ {run : Option (List Outline)} {prev : Option String} {named : Bool},
        o.Among (outlineTargets s late site parent run (i + 1) prev named xs) →
        ((o.Pieced ∧ o.late = late) ∨ o.Among (run.getD [])) ∨
          ∃ j y place, (x :: xs)[j]? = some y ∧
            o.Among (outline s late (site ++ [i + j]) place .plain y) := fun h => by
      refine (ih h).imp_right ?_
      rintro ⟨j, y, place, hy, h⟩
      rw [show i + 1 + j = i + (j + 1) by omega] at h
      exact ⟨j + 1, y, place, hy, h⟩
    rw [outlineTargets.eq_def] at h
    dsimp only at h
    split at h
    · rw [among_append, among_append, or_assoc] at h
      rcases h with h | h | h
      · exact .inl (among_outlineElement h)
      · exact .inr (hfirst h)
      · exact (hothers h).imp_left (·.imp_right fun h => absurd h not_among_nil)
    cases run with
    | some run =>
      refine (hothers h).elim (fun h => ?_) .inr
      rcases h with h | h
      · exact .inl (.inl h)
      · exact (among_append.1 h).imp .inr hfirst
    | none =>
      dsimp only at h
      split at h
      · rw [among_append] at h
        exact h.elim (.inr ∘ hfirst) hothers
      · exact (hothers h).elim (·.elim (.inl ∘ .inl) (.inr ∘ hfirst)) .inr

@[simp] theorem outline_skip : outline s late site place .skip x = [] := by
  obtain ⟨head, children⟩ := x
  rw [outline]

@[simp] theorem outline_keyword {kind : Kind} :
    outline s late site place (.keyword kind) x = [] := by
  obtain ⟨head, children⟩ := x
  rw [outline]

theorem outline_leading : outline s late site place .leading x =
    outlineAll s late site x.head (fun i => if i < leadingCount x.children then .plain else .skip) 0
      none false x.children := by
  obtain ⟨head, children⟩ := x
  rw [outline]

theorem outline_trailing : outline s late site place .trailing x =
    outlineAll s late site x.head (fun i => if i < leadingCount x.children then .skip else .plain) 0
      none false x.children := by
  obtain ⟨head, children⟩ := x
  rw [outline]

/-- A node comes of a child of the piece in the role handed to it. -/
def Passed (s : Source) (site : List Nat) (place : Place) (x : Concrete) (late : Bool) (role : Role)
    (o : Outline) : Prop :=
  ∃ i y late' place' role', x.children[i]? = some y ∧ Hands s place x late role i late' role' ∧
    o.Among (outline s late' (site ++ [i]) place' role' y)

theorem passed_of_outlineAll {roles : Nat → Role}
    (hroles : ∀ i, roles i = .skip ∨ (∃ kind, roles i = .keyword kind) ∨
      Hands s place x late role i late' (roles i))
    (h : o.Among (outlineAll s late' site x.head roles 0 none false x.children)) :
    Passed s site place x late role o := by
  obtain ⟨i, y, place', hy, h⟩ := among_outlineAll h
  rw [Nat.zero_add] at h
  rcases hroles i with hskip | ⟨kind, hkeyword⟩ | hhands
  · rw [hskip, outline_skip] at h
    exact absurd h not_among_nil
  · rw [hkeyword, outline_keyword] at h
    exact absurd h not_among_nil
  · exact ⟨i, y, late', place', roles i, hy, hhands, h⟩

/-- A node that a piece makes, what stands below it, and elements around that. -/
theorem among_own {kind : Kind} {os : List Outline}
    (hbelow : o.Among os → (o.Pieced ∧ o.late = late) ∨ Passed s site place x late .plain o)
    (h : o.Among [⟨kind, some site, late, os⟩]) :
    (o.late = late ∧ (o.Pieced ∨
        o.site = some site ∧ Role.plain = .plain ∧ o ∈ [⟨kind, some site, late, os⟩])) ∨
      Passed s site place x late .plain o := by
  rcases among_cons.1 h with rfl | h | h
  · exact .inl ⟨rfl, .inr ⟨rfl, rfl, List.mem_cons_self⟩⟩
  · exact (hbelow h).imp_left fun h => ⟨h.2, .inl h.1⟩
  · exact absurd h not_among_nil

/-- A node of the outline of a piece is its own or comes of a child in its role. -/
theorem among_outline (h : o.Among (outline s late site place role x)) :
    (o.late = late ∧ (o.Pieced ∨
        o.site = some site ∧ role = .plain ∧ o ∈ outline s late site place role x)) ∨
      Passed s site place x late role o := by
  cases role with
  | skip | keyword => simp at h
  | leading =>
    rw [outline_leading] at h
    refine .inr (passed_of_outlineAll (fun i => ?_) h)
    split
    next hi => exact .inr (.inr (.leading hi))
    next => exact .inl rfl
  | trailing =>
    rw [outline_trailing] at h
    refine .inr (passed_of_outlineAll (fun i => ?_) h)
    split
    next => exact .inl rfl
    next hi => exact .inr (.inr (.trailing (Nat.le_of_not_lt hi)))
  | plain =>
    have hsolid : Solid s x := solid_of_outline_ne_nil fun hnil => not_among_nil (hnil ▸ h)
    have hall : ∀ {roles : Nat → Role},
        (∀ i, roles i = .skip ∨ (∃ kind, roles i = .keyword kind) ∨
          Hands s place x late .plain i late (roles i)) →
        o.Among (outlineAll s late site x.head roles 0 none false x.children) →
        (o.Pieced ∧ o.late = late) ∨ Passed s site place x late .plain o := fun hroles h =>
      .inr (passed_of_outlineAll hroles h)
    cases herror : x.head.error with
    | true =>
      rw [hsolid.outline_error herror] at h ⊢
      exact among_own (hall fun i => .inr (.inr (.error hsolid herror))) h
    | false =>
    cases hof : Treatment.of s.text place x with
    | error fault =>
      rw [hsolid.outline_fault herror hof] at h
      exact absurd h not_among_nil
    | ok treatment =>
    have hchild : ∀ i, treatment.Passes i → Hands s place x late .plain i late .plain :=
      fun i hi => .child hsolid herror hof hi
    rw [hsolid.outline_eq herror hof] at h ⊢
    cases treatment with
    | leaf kind => exact absurd h not_among_nil
    | wrapped node token => exact among_own (fun h => absurd h not_among_nil) h
    | composite kind => exact among_own (hall fun i => .inr (.inr (hchild i trivial))) h
    | transparent => exact .inr (passed_of_outlineAll (fun i => .inr (.inr (hchild i trivial))) h)
    | keywordCall node keyword callee =>
      refine among_own (hall fun i => ?_) h
      split
      next => exact .inr (.inl ⟨keyword, rfl⟩)
      next hi => exact .inr (.inr (hchild i hi))
    | elseIf body =>
      rcases among_cons.1 h with rfl | h | h
      · exact .inl ⟨rfl, .inl ⟨rfl, by simp⟩⟩
      · refine .inr (passed_of_outlineAll (fun i => .inr (.inr ?_)) h)
        split
        next hi =>
          obtain rfl := hi
          exact .body hsolid herror hof
        next hi => exact hchild i hi
      · refine .inr (passed_of_outlineAll (fun i => ?_) h)
        split
        next hi =>
          obtain rfl := hi
          exact .inr (.inr (.rest hsolid herror hof))
        next => exact .inl rfl
    | targets =>
      refine among_own (fun h => ?_) h
      rcases among_outlineTargets h with (h | h) | ⟨j, y, place', hy, h⟩
      · exact .inl h
      · exact absurd h not_among_nil
      · rw [Nat.zero_add] at h
        exact .inr ⟨j, y, late, place', .plain, hy, hchild j trivial, h⟩

/-- Where an `if` behind an `else` is the last piece there, nothing is put off. -/
theorem late_eq_false_of_chained (hx : x.Chained)
    (h : o.Among (outline s false site place role x)) : o.late = false := by
  induction x using Concrete.induction generalizing site place role with
  | mk head children ih =>
    rcases among_outline h with ⟨hlate, -⟩ | ⟨i, y, late', place', role', hy, hhands, h⟩
    · exact hlate
    · have hmem := List.mem_of_getElem? hy
      have hlate : late' = false := by
        cases hhands with
        | rest _ _ hof =>
          obtain ⟨hkind, hof⟩ := Treatment.of_eq_elseIf hof
          obtain ⟨front, z, hchildren, hbody⟩ := exists_eq_append_of_ofElse hof (hx.last hkind)
          rw [hchildren, List.length_append, List.length_singleton, hbody]
          simp
        | _ => rfl
      rw [hlate] at h
      exact ih y hmem (hx.children y hmem) h

theorem pieced_of_site_eq_none (h : o.Among (outline s late site place role x))
    (hnone : o.site = none) : o.Pieced := by
  induction x using Concrete.induction generalizing late site place role with
  | mk head children ih =>
    rcases among_outline h with ⟨-, hpieced | ⟨hsite, -⟩⟩ | ⟨i, y, late', place', role', hy, -, h⟩
    · exact hpieced
    · rw [hnone] at hsite
      cases hsite
    · exact ih y (List.mem_of_getElem? hy) h

/-- A node with a site is the node of the piece there. -/
theorem exists_piece_of_among {q : List Nat} (h : o.Among (outline s late site place role x))
    (hq : o.site = some q) :
    ∃ r y late' place', q = site ++ r ∧ x.at? r = some y ∧ (r = [] → role = .plain) ∧
      o ∈ outline s late' q place' .plain y := by
  induction x using Concrete.induction generalizing late site place role with
  | mk head children ih =>
    rcases among_outline h with ⟨-, hpieced | ⟨hsite, hrole, hmem⟩⟩ |
      ⟨i, y, late', place', role', hy, -, h⟩
    · rw [hpieced.site_eq] at hq
      cases hq
    · obtain rfl := Option.some.inj (hsite.symm.trans hq)
      exact ⟨[], _, late, place, (List.append_nil _).symm, rfl, fun _ => hrole, hrole ▸ hmem⟩
    · obtain ⟨r, z, late'', place'', rfl, hz, -, hmem⟩ := ih y (List.mem_of_getElem? hy) h
      refine ⟨i :: r, z, late'', place'', List.append_assoc .., ?_, nofun, hmem⟩
      rw [Concrete.at?_cons, hy]
      exact hz

/-! ### What a piece passes on -/

/-- What is among the outlines of a child is among those of all children. -/
theorem exists_among_outlineAll (s : Source) (late : Bool) (site : List Nat) (parent : Head)
    (roles : Nat → Role) (i : Nat) (prev : Option String) (named : Bool) {j : Nat}
    (hy : xs[j]? = some y) : ∃ place, ∀ o : Outline,
      o.Among (outline s late (site ++ [i + j]) place (roles (i + j)) y) →
      o.Among (outlineAll s late site parent roles i prev named xs) := by
  induction xs generalizing i j prev named with
  | nil => cases hy
  | cons x xs ih =>
    rw [outlineAll]
    cases j with
    | zero =>
      cases hy
      exact ⟨_, fun o h => among_append.2 (.inl h)⟩
    | succ j =>
      obtain ⟨place, h⟩ := ih (i + 1) (some x.kind) (named || Treatment.isNameKind x.kind) hy
      rw [show i + 1 + j = i + (j + 1) by omega] at h
      exact ⟨place, fun o ho => among_append.2 (.inr (h o ho))⟩

theorem among_outlineElement_of_run {run : Option (List Outline)} (h : o.Among (run.getD [])) :
    o.Among (outlineElement late run) := by
  cases run with
  | none => exact h
  | some run => exact among_cons.2 (.inr (.inl h))

theorem among_outlineTargets_of_run {parent : Head} {run : Option (List Outline)}
    {prev : Option String} {named : Bool} (h : o.Among (run.getD [])) :
    o.Among (outlineTargets s late site parent run i prev named xs) := by
  induction xs generalizing i run prev named with
  | nil =>
    rw [outlineTargets]
    exact among_outlineElement_of_run h
  | cons x xs ih =>
    rw [outlineTargets.eq_def]
    dsimp only
    split
    · exact among_append.2 (.inl (among_append.2 (.inl (among_outlineElement_of_run h))))
    cases run with
    | none => exact absurd h not_among_nil
    | some run => exact ih (among_append.2 (.inl h))

theorem exists_among_outlineTargets (s : Source) (late : Bool) (site : List Nat) (parent : Head)
    (run : Option (List Outline)) (i : Nat) (prev : Option String) (named : Bool) {j : Nat}
    (hy : xs[j]? = some y) : ∃ place, ∀ o : Outline,
      o.Among (outline s late (site ++ [i + j]) place .plain y) →
      o.Among (outlineTargets s late site parent run i prev named xs) := by
  induction xs generalizing i j run prev named with
  | nil => cases hy
  | cons x xs ih =>
    rw [outlineTargets.eq_def]
    dsimp only
    cases j with
    | zero =>
      cases hy
      refine ⟨placeIn parent prev named y xs, fun o h => ?_⟩
      split
      · exact among_append.2 (.inl (among_append.2 (.inr h)))
      cases run with
      | some run => exact among_outlineTargets_of_run (among_append.2 (.inr h))
      | none =>
        dsimp only
        split
        · exact among_append.2 (.inl h)
        · exact among_outlineTargets_of_run h
    | succ j =>
      have hothers := fun run => ih run (i + 1) (some x.kind)
        (named || Treatment.isNameKind x.kind) hy
      rw [show i + 1 + j = i + (j + 1) by omega] at hothers
      split
      · exact (hothers none).imp fun _ h o ho => among_append.2 (.inr (h o ho))
      cases run with
      | some run => exact hothers _
      | none =>
        dsimp only
        split
        · exact (hothers none).imp fun _ h o ho => among_append.2 (.inr (h o ho))
        · exact hothers _

/-- A child's nodes in the role handed to it are nodes of the piece. -/
theorem Hands.exists_among (h : Hands s place x late role i late' role')
    (hy : x.children[i]? = some y) : ∃ place', ∀ o : Outline,
      o.Among (outline s late' (site ++ [i]) place' role' y) →
      o.Among (outline s late site place role x) := by
  have hall : ∀ (late' : Bool) (roles : Nat → Role), ∃ place', ∀ o : Outline,
      o.Among (outline s late' (site ++ [i]) place' (roles i) y) →
      o.Among (outlineAll s late' site x.head roles 0 none false x.children) := fun late' roles => by
    obtain ⟨place', h⟩ := exists_among_outlineAll s late' site x.head roles 0 none false hy
    rw [Nat.zero_add] at h
    exact ⟨place', h⟩
  have hbelow : ∀ {kind : Kind} {os : List Outline} (o : Outline), o.Among os →
      o.Among [⟨kind, some site, late, os⟩] := fun _ h => among_cons.2 (.inr (.inl h))
  cases h with
  | leading hi =>
    obtain ⟨place', h⟩ := hall late fun j => if j < leadingCount x.children then .plain else .skip
    rw [if_pos hi] at h
    rw [outline_leading]
    exact ⟨place', h⟩
  | trailing hi =>
    obtain ⟨place', h⟩ := hall late fun j => if j < leadingCount x.children then .skip else .plain
    rw [if_neg (Nat.not_lt_of_le hi)] at h
    rw [outline_trailing]
    exact ⟨place', h⟩
  | error hx herror =>
    rw [hx.outline_error herror]
    exact (hall late fun _ => .plain).imp fun _ h o ho => hbelow o (h o ho)
  | @child t _ hx herror hof ht =>
    rw [hx.outline_eq herror hof]
    cases t with
    | leaf | wrapped => exact ht.elim
    | composite kind => exact (hall late fun _ => .plain).imp fun _ h o ho => hbelow o (h o ho)
    | transparent => exact hall late fun _ => .plain
    | keywordCall node keyword callee =>
      obtain ⟨place', h⟩ := hall late fun j => if j = callee then .keyword keyword else .plain
      rw [if_neg ht] at h
      exact ⟨place', fun o ho => hbelow o (h o ho)⟩
    | elseIf body =>
      obtain ⟨place', h⟩ := hall late fun j => if j = body then .leading else .plain
      rw [if_neg ht] at h
      exact ⟨place', fun o ho => among_cons.2 (.inr (.inl (h o ho)))⟩
    | targets =>
      obtain ⟨place', h⟩ := exists_among_outlineTargets s late site x.head none 0 none false hy
      rw [Nat.zero_add] at h
      exact ⟨place', fun o ho => hbelow o (h o ho)⟩
  | body hx herror hof =>
    rw [hx.outline_eq herror hof]
    obtain ⟨place', h⟩ := hall late fun j => if j = i then .leading else .plain
    rw [if_pos rfl] at h
    exact ⟨place', fun o ho => among_cons.2 (.inr (.inl (h o ho)))⟩
  | rest hx herror hof =>
    rw [hx.outline_eq herror hof]
    obtain ⟨place', h⟩ := hall (late || i + 1 < x.children.length)
      fun j => if j = i then .trailing else .skip
    rw [if_pos rfl] at h
    exact ⟨place', fun o ho => among_cons.2 (.inr (.inr (h o ho)))⟩

/-! ### Which pieces are met -/

/-- No node is made of an `if` that continues an `else`. -/
theorem site_ne_of_among {w : Concrete} {r : List Nat} {body : Nat}
    (hrole : role = .leading ∨ role = .trailing → x.kind ≠ "else_clause")
    (hw : x.at? r = some w) (hkind : w.kind = "else_clause") (herror : w.head.error = false)
    (hbody : Treatment.ofElse w = .elseIf body)
    (h : o.Among (outline s late site place role x)) : o.site ≠ some (site ++ r ++ [body]) := by
  induction x using Concrete.induction generalizing late site place role r with
  | mk head children ih =>
    intro hsite
    rcases among_outline h with ⟨-, hpieced | ⟨hself, -⟩⟩ | ⟨j, y, late', place', role', hy, hhands, h⟩
    · rw [hpieced.site_eq] at hsite
      cases hsite
    · rw [hself, Option.some_inj, List.append_assoc, eq_comm, List.append_right_eq_self,
        List.append_eq_nil_iff] at hsite
      cases hsite.2
    obtain ⟨q, -, -, -, hq, -, hplain, -⟩ := exists_piece_of_among h hsite
    rw [List.append_assoc, List.append_assoc, List.append_cancel_left_eq] at hq
    cases r with
    | nil =>
      obtain ⟨rfl, hnil⟩ := List.cons_eq_cons.1 hq
      obtain rfl := hplain hnil.symm
      obtain rfl := Option.some.inj hw
      cases hhands with
      | leading => exact hrole (.inl rfl) hkind
      | trailing => exact hrole (.inr rfl) hkind
      | error _ herr => exact Bool.false_ne_true (herror.symm.trans herr)
      | child _ _ hof ht =>
        rw [Treatment.of_else hkind, hbody] at hof
        cases hof
        exact ht rfl
    | cons k r =>
      obtain ⟨rfl, -⟩ := List.cons_eq_cons.1 hq
      rw [Concrete.at?_cons, hy, Option.bind_some] at hw
      refine ih y (List.mem_of_getElem? hy) (fun hrole' => ?_) hw h ?_
      · have hif : ∀ {body : Nat}, Treatment.of s.text place ⟨head, children⟩ = .ok (.elseIf body) →
            children[body]? = some y → y.kind ≠ "else_clause" := fun hof hy => by
          rw [Treatment.kind_of_ofElse_eq_elseIf (Treatment.of_eq_elseIf hof).2 hy]
          decide
        cases hhands with
        | body _ _ hof => exact hif hof hy
        | rest _ _ hof => exact hif hof hy
        | _ => rcases hrole' with h | h <;> cases h
      · rw [hsite, List.append_assoc, List.append_assoc, List.append_assoc]
        rfl

/-- Wherever the piece stands, its child number `i` is lowered as it stands. -/
structure Opens (s : Source) (x : Concrete) (i : Nat) : Prop where
  solid : Solid s x
  passes : x.head.error = true ∨ x.head.error = false ∧
    ∀ place, ∃ t, Treatment.of s.text place x = .ok t ∧ t.Passes i

/-- Lowering a whole tree comes to the piece at a site, and lowers it as it stands. -/
inductive Met (s : Source) (root : Concrete) : List Nat → Concrete → Prop
  | root : root.kind ≠ "program" → Met s root [] root
  | top {i : Nat} {y : Concrete} : root.kind = "program" → root.children[i]? = some y →
    Met s root [i] y
  | child {site : List Nat} {x y : Concrete} {i : Nat} : Met s root site x → Opens s x i →
    x.children[i]? = some y → Met s root (site ++ [i]) y
  | branch {site : List Nat} {x y z : Concrete} {body j : Nat} : Met s root site x → Solid s x →
    x.head.error = false → x.kind = "else_clause" → Treatment.ofElse x = .elseIf body →
    x.children[body]? = some z → z.children[j]? = some y → Met s root (site ++ [body, j]) y

theorem Opens.hands (h : Opens s x i) : Hands s place x late .plain i late .plain := by
  rcases h.passes with herror | ⟨herror, hpasses⟩
  · exact .error h.solid herror
  · obtain ⟨t, hof, ht⟩ := hpasses place
    exact .child h.solid herror hof ht

theorem Met.exists_among {root : Concrete} (h : Met s root site x) : ∃ late place, ∀ o : Outline,
    o.Among (outline s late site place .plain x) → o.Among (rootOutline s root).children := by
  induction h with
  | root hkind =>
    rw [rootOutline, if_neg hkind]
    exact ⟨_, _, fun _ => id⟩
  | top hkind hy =>
    obtain ⟨place, h⟩ := exists_among_outlineAll s false [] root.head (fun _ => .plain) 0 none false hy
    rw [Nat.zero_add] at h
    rw [rootOutline, if_pos hkind]
    exact ⟨false, place, h⟩
  | child _ hopens hy ih =>
    obtain ⟨late, place, h⟩ := ih
    obtain ⟨place', h'⟩ := hopens.hands.exists_among hy
    exact ⟨late, place', fun o ho => h o (h' o ho)⟩
  | @branch site x y z body j _ hsolid herror hkind hbody hz hy ih =>
    obtain ⟨late, place, h⟩ := ih
    have hof : Treatment.of s.text place x = .ok (.elseIf body) := by
      rw [Treatment.of_else hkind, hbody]
    by_cases hj : j < leadingCount z.children
    · obtain ⟨place', h'⟩ := (Hands.body hsolid herror hof).exists_among hz
      obtain ⟨place'', h''⟩ := (Hands.leading hj).exists_among hy
      refine ⟨late, place'', fun o ho => h o (h' o (h'' o ?_))⟩
      rwa [List.append_assoc]
    · obtain ⟨place', h'⟩ := (Hands.rest hsolid herror hof).exists_among hz
      obtain ⟨place'', h''⟩ := (Hands.trailing (Nat.le_of_not_lt hj)).exists_among hy
      refine ⟨late || body + 1 < x.children.length, place'', fun o ho => h o (h' o (h'' o ?_))⟩
      rwa [List.append_assoc]

end Lower

end PhpLint
