import PhpLint.Hierarchy.ClassName
import PhpLint.Tree.Statement

/-!
Inheritance between the classes and interfaces of one file and the built-in ones. Entries that
come later hide earlier ones of the same name, and stand in front of them.
-/

namespace PhpLint

/-- What can be asked about classes. -/
structure ClassLookup where
  /-- The normal form of a class name as written, with its namespace. -/
  resolve : String → Option String
  /-- All classes and interfaces above a class, none where the class is not known. -/
  ancestors : String → Option (List String)

namespace ClassLookup

/-- Knows no class. -/
def unknown : ClassLookup := ⟨fun _ => none, fun _ => none⟩

instance : Inhabited ClassLookup := ⟨unknown⟩

end ClassLookup

/-- A class declaration: its full name and the parents as written. -/
structure ClassDecl where
  name : String
  parents : List String
  deriving DecidableEq, Inhabited, Repr

structure Hierarchy where
  parents : List (String × List String)
  imports : List (String × String)
  /-- Namespace of the file, empty if it has none. -/
  scope : String
  /-- Full names of the declared classes, in source order. -/
  declared : List String
  deriving DecidableEq, Inhabited, Repr

namespace Hierarchy

def builtin : List (String × List String) := [
  ("traversable", []), ("iterator", ["traversable"]), ("iteratoraggregate", ["traversable"]),
  ("seekableiterator", ["iterator"]), ("outeriterator", ["iterator"]),
  ("recursiveiterator", ["iterator"]), ("arrayaccess", []), ("countable", []),
  ("serializable", []), ("stringable", []), ("jsonserializable", []), ("unitenum", []),
  ("backedenum", ["unitenum"]), ("throwable", ["stringable"]), ("exception", ["throwable"]),
  ("error", ["throwable"]), ("errorexception", ["exception"]), ("logicexception", ["exception"]),
  ("badfunctioncallexception", ["logicexception"]),
  ("badmethodcallexception", ["badfunctioncallexception"]),
  ("domainexception", ["logicexception"]), ("invalidargumentexception", ["logicexception"]),
  ("lengthexception", ["logicexception"]), ("outofrangeexception", ["logicexception"]),
  ("runtimeexception", ["exception"]), ("outofboundsexception", ["runtimeexception"]),
  ("overflowexception", ["runtimeexception"]), ("rangeexception", ["runtimeexception"]),
  ("underflowexception", ["runtimeexception"]),
  ("unexpectedvalueexception", ["runtimeexception"]), ("jsonexception", ["exception"]),
  ("typeerror", ["error"]), ("argumentcounterror", ["typeerror"]),
  ("arithmeticerror", ["error"]), ("divisionbyzeroerror", ["arithmeticerror"]),
  ("valueerror", ["error"]), ("datetimeinterface", []), ("datetime", ["datetimeinterface"]),
  ("datetimeimmutable", ["datetimeinterface"]),
  ("arrayiterator", ["seekableiterator", "arrayaccess", "serializable", "countable"]),
  ("arrayobject", ["iteratoraggregate", "arrayaccess", "serializable", "countable"]),
  ("generator", ["iterator"]),
  ("splobjectstorage", ["countable", "iterator", "serializable", "arrayaccess"]),
  ("closure", []), ("stdclass", [])]

/-- Parents recorded for a class in normal form. -/
def parents? (h : Hierarchy) (name : String) : Option (List String) := h.parents.lookup name

def knows (h : Hierarchy) (name : String) : Bool := (h.parents? name).isSome

/-- A name without a leading separator means an import, a class of the file's namespace, a class of
that very name, the only declared class of that short name, or else a class of the namespace, the
first that applies. -/
def resolve (h : Hierarchy) (name : String) : Option String :=
  let trimmed := Text.trim name
  if trimmed.isEmpty then none
  else if trimmed.startsWith "\\" then some (ClassName.normalize trimmed)
  else
    let normal := ClassName.normalize trimmed
    let (head, tail) := ClassName.splitHead normal
    match h.imports.lookup head with
    | some target => some (match tail with
      | some tail => target ++ "\\" ++ tail
      | none => target)
    | none =>
      let qualified := ClassName.qualify h.scope normal
      if h.knows qualified then some qualified
      else if h.knows normal then some normal
      else match h.declared.filter (ClassName.short · == normal) with
        | [only] => some only
        | _ => some qualified

/-- Collects what the queue leads to, each name once and `self` never. -/
def reach (h : Hierarchy) (self : String) : Nat → List String → List String → List String
  | 0, _, seen => seen
  | _ + 1, [], seen => seen
  | fuel + 1, next :: queue, seen =>
    if next = self ∨ next ∈ seen then h.reach self fuel queue seen
    else h.reach self fuel (queue ++ (h.parents? next).getD []) (seen ++ [next])

/-- Number of parent entries. No search queues more names than this and its first ones. -/
def edges (h : Hierarchy) : Nat := (h.parents.flatMap (·.2)).length

/-- Every class and interface above a class, the class itself excluded. -/
def ancestors (h : Hierarchy) (name : String) : Option (List String) :=
  let self := ClassName.normalize name
  (h.parents? self).map fun direct => h.reach self (direct.length + h.edges + 1) direct []

/-- Namespace named by the first namespace declaration. -/
def scopeOf (root : Node) : String :=
  match (root.preorder.find? (·.kind == .namespaceDecl)).bind (·.firstOfKind? .declaredName) with
  | some name => ClassName.normalize name.text
  | none => ""

/-- What an import makes known under which name. -/
def importOf? (item : Node) : Option (String × String) :=
  (item.firstOfKind? .nameRef).map fun ref =>
    let target := ClassName.normalize ref.text
    match item.firstOfKind? .declaredName with
    | some name => (ClassName.normalize name.text, target)
    | none => (ClassName.short target, target)

def importsOf (root : Node) : List (String × String) :=
  ((root.preorder.filter (·.kind == .useItem)).filterMap importOf?).reverse

def declsOf (root : Node) (scope : String) : List ClassDecl :=
  (root.descendants.filter (·.kind.isClassLike)).filterMap fun decl =>
    decl.declaredName?.map fun name =>
      ⟨ClassName.qualify scope (ClassName.normalize name), decl.extendsNames ++ decl.implementsNames⟩

/-- Records a declaration, its parents resolved by what is known before it. -/
def declare (h : Hierarchy) (decl : ClassDecl) : Hierarchy :=
  { h with parents := (decl.name, decl.parents.filterMap h.resolve) :: h.parents }

def ofRoot (root : Node) : Hierarchy :=
  let scope := scopeOf root
  let decls := declsOf root scope
  decls.foldl declare ⟨builtin, importsOf root, scope, decls.map (·.name)⟩

def ofTree (t : Tree) : Hierarchy := ofRoot t.rootNode

def lookup (h : Hierarchy) : ClassLookup := ⟨h.resolve, h.ancestors⟩

end Hierarchy

end PhpLint
