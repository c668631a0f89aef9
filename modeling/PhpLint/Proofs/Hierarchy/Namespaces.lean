import PhpLint.Proofs.Hierarchy.Order
import PhpLint.Proofs.Tree.Subtree

/-! The namespaces of a file. A namespace declaration with a block reaches to the end of the block,
one without to the next namespace declaration. The hierarchy of a file reads the first of them only
and puts every class there, so a class that stands elsewhere is known under a name not its own, and
classes of one name share an entry, whatever their namespaces. -/

namespace PhpLint

namespace Node

/-- The namespace that a declaration opens, empty where it names none. -/
def openedSpace (n : Node) : String :=
  ((n.firstOfKind? .declaredName).map fun name => ClassName.normalize name.text).getD ""

/-- The namespace below a node that stands in `space`. -/
def spaceBelow (n : Node) (space : String) : String :=
  if n.kind = .namespaceDecl then n.openedSpace else space

/-- The namespace behind a node that stands in `space`, in a list that as a whole stands in
`around`. -/
def spaceBehind (n : Node) (around space : String) : String :=
  if n.kind = .namespaceDecl then
    if (n.firstOfKind? .block).isSome then around else n.openedSpace
  else space

end Node

namespace Hierarchy

open ClassName

/-- A class declaration where it stands: the namespace, empty outside any, and the name, both in
normal form, and the parents as written. -/
structure Standing where
  space : String
  name : String
  parents : List String
  deriving DecidableEq, Repr

namespace Standing

def fullName (d : Standing) : String := qualify d.space d.name

/-- The declaration as a file of the namespace `scope` records it. -/
def recorded (d : Standing) (scope : String) : ClassDecl := ⟨qualify scope d.name, d.parents⟩

end Standing

/-- The class that a node in `space` declares, if it declares one by name. -/
def standing? (space : String) (n : Node) : Option Standing :=
  if !n.isToken && n.kind.isClassLike then
    n.declaredName?.map fun name => ⟨space, normalize name, n.extendsNames ++ n.implementsNames⟩
  else none

mutual

/-- The named class declarations of a subtree that stands in `space`, in source order. -/
def standing (space : String) : Node → List Standing
  | ⟨id, kind, token, children⟩ =>
    let n : Node := ⟨id, kind, token, children⟩
    (standing? (n.spaceBelow space) n).toList ++
      standingAll (n.spaceBelow space) (n.spaceBelow space) children

def standingAll (around space : String) : List Node → List Standing
  | [] => []
  | n :: ns => standing space n ++ standingAll around (n.spaceBehind around space) ns

end

variable {root : Node} {before after : List Standing} {d : Standing}

/-! What is recorded of a file. -/

theorem scopeOf_eq (root : Node) :
    scopeOf root =
      ((root.preorder.find? (·.kind == .namespaceDecl)).map Node.openedSpace).getD "" := by
  rw [scopeOf]
  cases root.preorder.find? (·.kind == .namespaceDecl) with
  | none => rfl
  | some n =>
    rw [Option.bind_some, Option.map_some, Option.getD_some, Node.openedSpace]
    cases n.firstOfKind? .declaredName <;> rfl

/-- What the declaration `n`, if it is one, is recorded as. -/
def record? (scope : String) (n : Node) : Option ClassDecl :=
  (standing? "" n).map (·.recorded scope)

theorem map_recorded_standing? (space scope : String) (n : Node) :
    (standing? space n).map (·.recorded scope) = record? scope n := by
  rw [record?, standing?, standing?]
  split
  · rw [Option.map_map, Option.map_map]
    rfl
  · rfl

theorem declsOf_eq_filterMap (root : Node) (scope : String) :
    declsOf root scope = root.preorder.filterMap (record? scope) := by
  rw [declsOf, Node.descendants, List.filter_filter, List.filterMap_filter]
  refine List.filterMap_congr fun n _ => ?_
  rw [record?, standing?, Bool.and_comm]
  split
  · rw [Option.map_map]
    rfl
  · rfl

mutual

theorem map_recorded_standing (space scope : String) : (n : Node) →
    (standing space n).map (·.recorded scope) = n.preorder.filterMap (record? scope)
  | ⟨id, kind, token, children⟩ => by
    rw [standing, Node.preorder, List.filterMap_cons, List.map_append, ← Option.toList_map,
      map_recorded_standing?, map_recorded_standingAll _ _ scope children]
    cases record? scope ⟨id, kind, token, children⟩ <;> rfl

theorem map_recorded_standingAll (around space scope : String) : (ns : List Node) →
    (standingAll around space ns).map (·.recorded scope) =
      (Node.preorderAll ns).filterMap (record? scope)
  | [] => rfl
  | n :: ns => by
    rw [standingAll, Node.preorderAll, List.map_append, List.filterMap_append,
      map_recorded_standing _ scope n, map_recorded_standingAll _ _ scope ns]

end

/-- Every class of the file is recorded, in order, all in the one namespace. -/
theorem declsOf_eq_map_recorded (root : Node) (scope : String) :
    declsOf root scope = (standing "" root).map (·.recorded scope) := by
  rw [declsOf_eq_filterMap, map_recorded_standing]

theorem normal_scopeOf (root : Node) : Normal (scopeOf root).toList := by
  rw [scopeOf]
  split
  · exact normal_normalize _
  · exact ⟨rfl, rfl, rfl⟩

theorem normal_recorded (hd : d ∈ standing "" root) :
    Normal (d.recorded (scopeOf root)).name.toList := by
  have hmem : d.recorded (scopeOf root) ∈ declsOf root (scopeOf root) :=
    declsOf_eq_map_recorded root _ ▸ List.mem_map_of_mem hd
  obtain ⟨n, -, hn⟩ := List.mem_filterMap.1 hmem
  obtain ⟨written, -, hwritten⟩ := Option.map_eq_some_iff.1 hn
  exact hwritten ▸ (normal_scopeOf root).qualify (normal_normalize written)

theorem knows_ofRoot {name : String} :
    (ofRoot root).knows name = true ↔
      (∃ d ∈ standing "" root, qualify (scopeOf root) d.name = name) ∨
        name ∈ builtin.map Prod.fst := by
  rw [ofRoot_eq_recording, knows_recording, Known, declsOf_eq_map_recorded, List.map_map,
    List.mem_map]
  rfl

theorem isSome_ancestors {h : Hierarchy} {name : String} :
    (h.ancestors name).isSome = h.knows (normalize name) := by
  rw [ancestors, Option.isSome_map, knows]

/-- How the declaration `d` of a file is known, which stands between those of `before` and those of
`after`. -/
structure KnownAs (root : Node) (before : List Standing) (d : Standing) (after : List Standing) :
    Prop where
  /-- With a separator in front, its name in the namespace of the file is asked for as it stands. -/
  normalize_absolute : normalize ("\\" ++ (d.recorded (scopeOf root)).name) =
    (d.recorded (scopeOf root)).name
  /-- It has an entry under that name. -/
  isSome_ancestors : ∀ name, normalize name = (d.recorded (scopeOf root)).name →
    ((ofRoot root).ancestors name).isSome = true
  /-- That is its own full name exactly if it stands there. -/
  recorded_eq_iff : (d.recorded (scopeOf root)).name = d.fullName ↔ d.space = scopeOf root
  /-- Else there is no entry under its own name but that of a built-in class. -/
  isSome_ancestors_iff : (∀ e ∈ standing "" root, '\\' ∉ e.name.toList) →
    ∀ name, normalize name = d.fullName →
      (((ofRoot root).ancestors name).isSome = true ↔
        d.space = scopeOf root ∨ d.fullName ∈ builtin.map Prod.fst)
  /-- It shares its entry with all classes of the same name, whatever their namespaces. -/
  recorded_eq_recorded_iff : ∀ e ∈ standing "" root,
    (e.recorded (scopeOf root)).name = (d.recorded (scopeOf root)).name ↔ e.name = d.name
  /-- The entry has the parents of the last of them. -/
  parents?_eq : (∀ e ∈ after, e.name ≠ d.name) →
    (ofRoot root).parents? (d.recorded (scopeOf root)).name =
      some (d.parents.filterMap (recording root (before.map (·.recorded (scopeOf root)))).resolve)

theorem knownAs (hplace : standing "" root = before ++ d :: after) :
    KnownAs root before d after := by
  have hd : d ∈ standing "" root := hplace ▸ List.mem_append_right before List.mem_cons_self
  have hdecls : declsOf root (scopeOf root) = before.map (·.recorded (scopeOf root)) ++
      d.recorded (scopeOf root) :: after.map (·.recorded (scopeOf root)) := by
    rw [declsOf_eq_map_recorded, hplace, List.map_append, List.map_cons]
  refine ⟨(normal_recorded hd).normalize_absolute, fun name hname => ?_,
    qualify_left_inj.trans eq_comm, fun hplain name hname => ?_, fun e _ => qualify_right_inj,
    fun hlast => parents?_ofRoot_of_last hdecls ?_⟩
  · rw [isSome_ancestors, hname]
    exact knows_ofRoot.2 (.inl ⟨d, hd, rfl⟩)
  · rw [isSome_ancestors, hname, knows_ofRoot]
    refine or_congr_left ⟨?_, fun hspace => ⟨d, hd, by rw [Standing.fullName, hspace]⟩⟩
    rintro ⟨e, he, hfull⟩
    exact ((qualify_inj (hplain e he) (hplain d hd)).1 hfull).1.symm
  · simp only [List.map_map, List.mem_map, not_exists, not_and]
    exact fun e he heq => hlast e he (qualify_right_inj.1 heq)

/-- The hierarchy of a file records all its named class declarations, in source order, each under
the name it would have in the namespace that the first namespace declaration opens. -/
theorem ofRoot_records_first_namespace (root : Node) :
    scopeOf root =
        ((root.preorder.find? (·.kind == .namespaceDecl)).map Node.openedSpace).getD "" ∧
      declsOf root (scopeOf root) = (standing "" root).map (·.recorded (scopeOf root)) ∧
      ∀ before d after, standing "" root = before ++ d :: after → KnownAs root before d after :=
  ⟨scopeOf_eq root, declsOf_eq_map_recorded root _, fun _ _ _ => knownAs⟩

/-- Two namespaces with a block each and a class of the same name in both, of which the second
extends the first. -/
def sameNameTwice : Node := (Tree.ofEvents [.start .sourceFile,
  .start .namespaceDecl, .start .declaredName, .token .ident "X", .finish,
    .start .block, .start .classDecl, .start .declaredName, .token .ident "A", .finish, .finish,
    .finish, .finish,
  .start .namespaceDecl, .start .declaredName, .token .ident "Y", .finish,
    .start .block, .start .classDecl, .start .declaredName, .token .ident "A", .finish,
      .start .extendsList, .start .nameRef, .token .ident "\\X\\A", .finish, .finish, .finish,
    .finish, .finish,
  .finish]).rootNode

theorem sameNameTwice_records_first_namespace :
    ((ofRoot sameNameTwice).ancestors "\\X\\A").isSome = true ∧
      ((ofRoot sameNameTwice).ancestors "\\Y\\A").isSome = false ∧
      (ofRoot sameNameTwice).parents? "x\\a" =
        some (["\\X\\A"].filterMap (recording sameNameTwice [⟨"x\\a", []⟩]).resolve) := by
  obtain ⟨-, -, hknown⟩ := ofRoot_records_first_namespace sameNameTwice
  have hfirst := hknown [] ⟨"x", "a", []⟩ [⟨"y", "a", ["\\X\\A"]⟩] (by decide +kernel)
  have hsecond := hknown [⟨"x", "a", []⟩] ⟨"y", "a", ["\\X\\A"]⟩ [] (by decide +kernel)
  refine ⟨hfirst.isSome_ancestors "\\X\\A" (by decide +kernel), Bool.eq_false_iff.2 fun h => ?_, ?_⟩
  · have hown := (hsecond.isSome_ancestors_iff (by decide +kernel) "\\Y\\A" (by decide +kernel)).1 h
    revert hown
    decide +kernel
  · have hname : qualify (scopeOf sameNameTwice) "a" = "x\\a" := by decide +kernel
    have hentry := hsecond.parents?_eq fun _ h => nomatch h
    simp only [Standing.recorded, List.map_cons, List.map_nil, hname] at hentry
    exact hentry

/-- The class of the second namespace is not known, and its parents are on record for that of the
first. -/
theorem ancestors_in_second_namespace :
    (standing "" sameNameTwice).map Standing.fullName = ["x\\a", "y\\a"] ∧
      (ofRoot sameNameTwice).ancestors "y\\a" = none ∧
      (ofRoot sameNameTwice).parents? "x\\a" = some ["x\\a"] := by
  decide +kernel

end Hierarchy

end PhpLint
