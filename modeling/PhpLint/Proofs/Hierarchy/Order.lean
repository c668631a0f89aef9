import Mathlib.Data.List.Perm.Basic
import PhpLint.Hierarchy.Basic
import PhpLint.Proofs.Hierarchy.ClassName
import PhpLint.Tree.Builder

/-! What the order of the declarations in a file decides. A name is resolved by the classes that are
known: a declaration's parents by those recorded before it, a name asked for later by all of the
file. Where the two disagree, the parents depend on the order. -/

namespace PhpLint.Hierarchy

open ClassName

variable {h h' : Hierarchy} {root : Node} {decl : ClassDecl}
  {before after later decls : List ClassDecl} {name : String}

/-! ### Looking for a name -/

/-- The name is neither empty nor led by a separator, and its first part is not imported: it is
looked for among the classes. -/
def Sought (imports : List (String × String)) (name : String) : Prop :=
  Text.trim name ≠ "" ∧ (Text.trim name).startsWith "\\" = false ∧
    imports.lookup (splitHead (normalize name)).1 = none

instance (imports : List (String × String)) (name : String) : Decidable (Sought imports name) :=
  inferInstanceAs (Decidable (_ ∧ _))

/-- What a name means that is not known, neither in the namespace nor as it stands. -/
def guess (scope : String) (declared : List String) (normal : String) : String :=
  match declared.filter (short · == normal) with
  | [only] => only
  | _ => qualify scope normal

theorem resolve_of_sought (hs : Sought h.imports name) :
    h.resolve name = some
      (if h.knows (qualify h.scope (normalize name)) then qualify h.scope (normalize name)
      else if h.knows (normalize name) then normalize name
      else guess h.scope h.declared (normalize name)) := by
  obtain ⟨hne, hplain, himport⟩ := hs
  have hempty : (Text.trim name).isEmpty = false := by simpa using hne
  rcases hfound : h.declared.filter (short · == normalize name) with
    _ | ⟨only, _ | ⟨next, rest⟩⟩
  all_goals
    simp only [resolve, hempty, hplain, normalize_trim, himport, guess, hfound, Bool.false_eq_true,
      ↓reduceIte]
    split
    · rfl
    · split <;> rfl

theorem resolve_of_not_sought (himports : h'.imports = h.imports) (hs : ¬ Sought h.imports name) :
    h'.resolve name = h.resolve name := by
  simp only [resolve, normalize_trim, himports]
  split
  · rfl
  · split
    · rfl
    · split
      · rfl
      · next hempty hplain _ himport =>
        exact absurd ⟨by simpa using hempty, by simpa using hplain, himport⟩ hs

variable {scope : String} {declared : List String}

theorem guess_of_separator (hname : '\\' ∈ name.toList) :
    guess scope declared name = qualify scope name := by
  have hnone : declared.filter (short · == name) = [] := by
    rw [List.filter_eq_nil_iff]
    intro d _ heq
    exact separator_notMem_short d (by rwa [eq_of_beq heq])
  rw [guess, hnone]

theorem guess_of_declared (hname : qualify scope name ∈ declared) :
    guess scope declared name = qualify scope name := by
  by_cases hsep : '\\' ∈ name.toList
  · exact guess_of_separator hsep
  · have hmem : qualify scope name ∈ declared.filter (short · == name) :=
      List.mem_filter.2 ⟨hname, beq_iff_eq.2 (short_qualify hsep)⟩
    rw [guess]
    split
    · next only honly =>
      rw [honly, List.mem_singleton] at hmem
      exact hmem.symm
    · rfl

theorem guess_perm {declared' : List String} (h : declared.Perm declared') :
    guess scope declared name = guess scope declared' name := by
  have hperm := h.filter (short · == name)
  rw [guess, guess]
  split
  · next only honly =>
    rw [honly, List.singleton_perm] at hperm
    rw [← hperm]
  · next hmany =>
    split
    · next only honly =>
      rw [honly, List.perm_singleton] at hperm
      exact absurd hperm (hmany only)
    · rfl

/-! ### Recording declarations -/

@[simp] theorem imports_foldl_declare : (decls.foldl declare h).imports = h.imports := by
  induction decls generalizing h with
  | nil => rfl
  | cons decl decls ih => exact ih

@[simp] theorem scope_foldl_declare : (decls.foldl declare h).scope = h.scope := by
  induction decls generalizing h with
  | nil => rfl
  | cons decl decls ih => exact ih

@[simp] theorem declared_foldl_declare : (decls.foldl declare h).declared = h.declared := by
  induction decls generalizing h with
  | nil => rfl
  | cons decl decls ih => exact ih

theorem parents?_declare (h : Hierarchy) (decl : ClassDecl) (name : String) :
    (h.declare decl).parents? name =
      if name = decl.name then some (decl.parents.filterMap h.resolve) else h.parents? name := by
  rw [parents?, declare, List.lookup_cons]
  split
  · next heq => rw [if_pos (eq_of_beq heq)]
  · next hne => rw [if_neg fun heq => by simp [heq] at hne, parents?]

theorem parents?_foldl_declare_of_notMem (hname : name ∉ decls.map (·.name)) :
    (decls.foldl declare h).parents? name = h.parents? name := by
  induction decls generalizing h with
  | nil => rfl
  | cons decl decls ih =>
    rw [List.map_cons, List.mem_cons, not_or] at hname
    rw [List.foldl_cons, ih hname.2, parents?_declare, if_neg hname.1]

theorem knows_foldl_declare :
    (decls.foldl declare h).knows name = true ↔ name ∈ decls.map (·.name) ∨ h.knows name = true := by
  induction decls generalizing h with
  | nil => simp
  | cons decl decls ih =>
    have hone : (h.declare decl).knows name = true ↔ name = decl.name ∨ h.knows name = true := by
      rw [knows, parents?_declare]
      split <;> simp_all [knows]
    rw [List.foldl_cons, ih, hone, List.map_cons, List.mem_cons]
    tauto

/-- The classes of a file, of which those of `decls` have been recorded. -/
def recording (root : Node) (decls : List ClassDecl) : Hierarchy :=
  decls.foldl declare
    ⟨builtin, importsOf root, scopeOf root, (declsOf root (scopeOf root)).map (·.name)⟩

theorem ofRoot_eq_recording (root : Node) :
    ofRoot root = recording root (declsOf root (scopeOf root)) := rfl

/-- Built in, or recorded already. -/
def Known (decls : List ClassDecl) (name : String) : Prop :=
  name ∈ decls.map (·.name) ∨ name ∈ builtin.map Prod.fst

instance (decls : List ClassDecl) (name : String) : Decidable (Known decls name) :=
  inferInstanceAs (Decidable (_ ∨ _))

theorem knows_recording : (recording root decls).knows name = true ↔ Known decls name := by
  rw [recording, knows_foldl_declare, Known]
  refine or_congr_right ?_
  rw [knows, parents?, List.lookup_isSome_iff]
  simp

theorem separator_mem_of_declared (hscope : scopeOf root ≠ "")
    (hname : name ∈ (declsOf root (scopeOf root)).map (·.name)) : '\\' ∈ name.toList := by
  obtain ⟨decl, hdecl, rfl⟩ := List.mem_map.1 hname
  obtain ⟨n, _, hn⟩ := List.mem_filterMap.1 hdecl
  obtain ⟨written, _, rfl⟩ := Option.map_eq_some_iff.1 hn
  rw [toList_qualify hscope]
  simp

/-- A name is read too early: of the class of the namespace and the class of that very name, the one
it means is recorded later, and something else answers in its place. -/
def Early (root : Node) (before later : List ClassDecl) (name : String) : Prop :=
  Sought (importsOf root) name ∧
    qualify (scopeOf root) (normalize name) ≠ normalize name ∧
    ¬ Known before (qualify (scopeOf root) (normalize name)) ∧
    (qualify (scopeOf root) (normalize name) ∈ later.map (·.name) ∧ Known before (normalize name) ∨
      qualify (scopeOf root) (normalize name) ∉ later.map (·.name) ∧
        ¬ Known before (normalize name) ∧ normalize name ∈ later.map (·.name))

instance (root : Node) (before later : List ClassDecl) (name : String) :
    Decidable (Early root before later name) :=
  inferInstanceAs (Decidable (_ ∧ _))

theorem known_append {n : String} :
    Known (before ++ later) n ↔ Known before n ∨ n ∈ later.map (·.name) := by
  simp only [Known, List.map_append, List.mem_append]
  tauto

theorem resolve_recording_of_sought (hs : Sought (importsOf root) name) :
    (recording root decls).resolve name = some
      (if Known decls (qualify (scopeOf root) (normalize name)) then
        qualify (scopeOf root) (normalize name)
      else if Known decls (normalize name) then normalize name
      else guess (scopeOf root) ((declsOf root (scopeOf root)).map (·.name)) (normalize name)) := by
  have hsought : Sought (recording root decls).imports name := by
    rwa [recording, imports_foldl_declare]
  rw [resolve_of_sought hsought]
  simp only [knows_recording]
  simp only [recording, scope_foldl_declare, declared_foldl_declare]

theorem resolve_recording_eq_iff (hdecls : declsOf root (scopeOf root) = before ++ later) :
    (recording root before).resolve name = (ofRoot root).resolve name ↔
      ¬ Early root before later name := by
  by_cases hs : Sought (importsOf root) name
  · have hnear := @guess_of_declared (normalize name) (scopeOf root)
      ((declsOf root (scopeOf root)).map (·.name))
    have hfar : normalize name ∈ (declsOf root (scopeOf root)).map (·.name) →
        qualify (scopeOf root) (normalize name) ≠ normalize name →
        guess (scopeOf root) ((declsOf root (scopeOf root)).map (·.name)) (normalize name) =
          qualify (scopeOf root) (normalize name) := fun hmem hne =>
      guess_of_separator <| separator_mem_of_declared
        (fun hscope => hne (by rw [hscope, qualify, if_pos (by decide)])) hmem
    rw [ofRoot_eq_recording, resolve_recording_of_sought hs, resolve_recording_of_sought hs, Early]
    simp only [hdecls, known_append, List.map_append, List.mem_append] at *
    grind
  · have himports : ∀ ds, (recording root ds).imports = importsOf root := fun ds =>
      imports_foldl_declare
    refine iff_of_true (resolve_of_not_sought ?_ ?_) fun hearly => hs hearly.1
    · rw [ofRoot_eq_recording, himports, himports]
    · rwa [ofRoot_eq_recording, himports]

/-- Of several declarations of one name the last is the one on record. -/
theorem parents?_ofRoot_of_last (hdecls : declsOf root (scopeOf root) = before ++ decl :: after)
    (hafter : decl.name ∉ after.map (·.name)) :
    (ofRoot root).parents? decl.name =
      some (decl.parents.filterMap (recording root before).resolve) := by
  rw [ofRoot_eq_recording, hdecls, recording, List.foldl_append, List.foldl_cons,
    parents?_foldl_declare_of_notMem hafter, parents?_declare, if_pos rfl, recording]

theorem parents?_ofRoot (hdecls : declsOf root (scopeOf root) = before ++ decl :: after)
    (hnodup : ((declsOf root (scopeOf root)).map (·.name)).Nodup) :
    (ofRoot root).parents? decl.name =
      some (decl.parents.filterMap (recording root before).resolve) := by
  refine parents?_ofRoot_of_last hdecls ?_
  rw [hdecls, List.map_append, List.map_cons, List.nodup_append, List.nodup_cons] at hnodup
  exact hnodup.2.1.1

/-! ### Another order -/

/-- No parent of the file is read too early. -/
def InOrder (root : Node) : Prop :=
  ∀ i : Fin (declsOf root (scopeOf root)).length,
    ∀ name ∈ (declsOf root (scopeOf root))[i].parents,
      ¬ Early root ((declsOf root (scopeOf root)).take i) ((declsOf root (scopeOf root)).drop i) name

instance (root : Node) : Decidable (InOrder root) :=
  inferInstanceAs (Decidable (∀ _, _))

/-- The same file but for the order of its declarations. -/
structure Reordered (root root' : Node) : Prop where
  scope_eq : scopeOf root' = scopeOf root
  imports_eq : importsOf root' = importsOf root
  perm : (declsOf root' (scopeOf root')).Perm (declsOf root (scopeOf root))

theorem InOrder.filterMap_resolve (h : InOrder root)
    (hdecls : declsOf root (scopeOf root) = before ++ decl :: after) :
    decl.parents.filterMap (recording root before).resolve =
      decl.parents.filterMap (ofRoot root).resolve := by
  refine List.filterMap_congr fun name hname => (resolve_recording_eq_iff hdecls).2 ?_
  have hlt : before.length < (declsOf root (scopeOf root)).length := by simp [hdecls]
  have hat := h ⟨before.length, hlt⟩ name
  simpa [hdecls, hname] using hat

/-- What the finished hierarchy has on record for a declaration whose parents all mean what they
mean at the end. -/
def settledEntry (root : Node) (decl : ClassDecl) : String × List String :=
  (decl.name, decl.parents.filterMap (ofRoot root).resolve)

theorem InOrder.parents_ofRoot (h : InOrder root) :
    (ofRoot root).parents =
      ((declsOf root (scopeOf root)).map (settledEntry root)).reverse ++ builtin := by
  suffices hrecording : ∀ before after, declsOf root (scopeOf root) = before ++ after →
      (recording root before).parents = (before.map (settledEntry root)).reverse ++ builtin by
    exact hrecording _ [] (List.append_nil _).symm
  intro before
  induction before using List.reverseRecOn with
  | nil => exact fun _ _ => rfl
  | append_singleton before decl ih =>
    intro after hdecls
    rw [List.append_assoc, List.singleton_append] at hdecls
    have hstep : recording root (before ++ [decl]) = (recording root before).declare decl := by
      rw [recording, List.foldl_append, List.foldl_cons, List.foldl_nil, recording]
    rw [hstep, declare, ih _ hdecls, h.filterMap_resolve hdecls, List.map_append, List.map_singleton,
      List.reverse_append]
    rfl

theorem reach_congr (hparents : ∀ n, h'.parents? n = h.parents? n) (self : String) (fuel : Nat)
    (queue seen : List String) : h'.reach self fuel queue seen = h.reach self fuel queue seen := by
  induction fuel generalizing queue seen with
  | zero => rfl
  | succ fuel ih =>
    cases queue with
    | nil => rfl
    | cons next queue =>
      rw [reach, reach, hparents]
      split <;> exact ih _ _

theorem ancestors_congr (hparents : ∀ n, h'.parents? n = h.parents? n) (hedges : h'.edges = h.edges)
    (name : String) : h'.ancestors name = h.ancestors name := by
  rw [ancestors, ancestors, hparents, hedges]
  simp only [reach_congr hparents]

namespace Reordered

variable {root' : Node}

theorem perm_names (hr : Reordered root root') :
    ((declsOf root' (scopeOf root')).map (·.name)).Perm
      ((declsOf root (scopeOf root)).map (·.name)) :=
  hr.perm.map _

theorem known_iff (hr : Reordered root root') :
    Known (declsOf root' (scopeOf root')) name ↔ Known (declsOf root (scopeOf root)) name := by
  rw [Known, Known, hr.perm_names.mem_iff]

theorem resolve_eq (hr : Reordered root root') (name : String) :
    (ofRoot root').resolve name = (ofRoot root).resolve name := by
  by_cases hs : Sought (importsOf root) name
  · have hs' : Sought (importsOf root') name := by rwa [hr.imports_eq]
    rw [ofRoot_eq_recording, ofRoot_eq_recording, resolve_recording_of_sought hs,
      resolve_recording_of_sought hs', guess_perm hr.perm_names, hr.scope_eq]
    simp only [← hr.scope_eq, hr.known_iff]
  · refine resolve_of_not_sought ?_ ?_
    · rw [ofRoot_eq_recording, ofRoot_eq_recording, recording, recording, imports_foldl_declare,
        imports_foldl_declare, hr.imports_eq]
    · rwa [ofRoot_eq_recording, recording, imports_foldl_declare]

theorem settledEntry_eq (hr : Reordered root root') : settledEntry root' = settledEntry root := by
  funext decl
  have hresolve : (ofRoot root').resolve = (ofRoot root).resolve := funext hr.resolve_eq
  rw [settledEntry, hresolve, settledEntry]

theorem nodup_names (hr : Reordered root root')
    (hnodup : ((declsOf root (scopeOf root)).map (·.name)).Nodup) :
    ((declsOf root' (scopeOf root')).map (·.name)).Nodup :=
  hr.perm_names.nodup_iff.2 hnodup

theorem parents?_eq (hr : Reordered root root') (h : InOrder root) (h' : InOrder root')
    (hnodup : ((declsOf root (scopeOf root)).map (·.name)).Nodup) (name : String) :
    (ofRoot root').parents? name = (ofRoot root).parents? name := by
  by_cases hname : name ∈ (declsOf root (scopeOf root)).map (·.name)
  · obtain ⟨decl, hdecl, rfl⟩ := List.mem_map.1 hname
    obtain ⟨before, after, hdecls⟩ := List.append_of_mem hdecl
    obtain ⟨before', after', hdecls'⟩ := List.append_of_mem (hr.perm.mem_iff.2 hdecl)
    have hentry := congrFun hr.settledEntry_eq decl
    rw [parents?_ofRoot hdecls hnodup, parents?_ofRoot hdecls' (hr.nodup_names hnodup),
      h.filterMap_resolve hdecls, h'.filterMap_resolve hdecls']
    exact congrArg some (Prod.mk.inj hentry).2
  · rw [ofRoot_eq_recording, ofRoot_eq_recording, recording, recording,
      parents?_foldl_declare_of_notMem hname,
      parents?_foldl_declare_of_notMem fun hmem => hname (hr.perm_names.mem_iff.1 hmem)]
    rfl

theorem edges_eq (hr : Reordered root root') (h : InOrder root) (h' : InOrder root') :
    (ofRoot root').edges = (ofRoot root).edges := by
  have hperm : (ofRoot root').parents.Perm (ofRoot root).parents := by
    rw [h.parents_ofRoot, h'.parents_ofRoot, hr.settledEntry_eq]
    refine List.Perm.append_right _ ?_
    exact (List.reverse_perm _).trans ((hr.perm.map _).trans (List.reverse_perm _).symm)
  exact (hperm.flatMap_right _).length_eq

theorem ancestors_eq (hr : Reordered root root') (h : InOrder root) (h' : InOrder root')
    (hnodup : ((declsOf root (scopeOf root)).map (·.name)).Nodup) (name : String) :
    (ofRoot root').ancestors name = (ofRoot root).ancestors name :=
  ancestors_congr (hr.parents?_eq h h' hnodup) (hr.edges_eq h h') name

end Reordered

/-- A parent is recorded as the file's classes will have it in the end exactly if it is not read too
early. What names mean in the end is the same in every order, and so are the classes above a class
where no parent is read too early. -/
theorem ofRoot_declaration_order
    (hnodup : ((declsOf root (scopeOf root)).map (·.name)).Nodup) :
    (∀ before decl after, declsOf root (scopeOf root) = before ++ decl :: after →
      (ofRoot root).parents? decl.name =
          some (decl.parents.filterMap (recording root before).resolve) ∧
        ∀ name, (recording root before).resolve name = (ofRoot root).resolve name ↔
          ¬ Early root before (decl :: after) name) ∧
    ∀ root', Reordered root root' →
      (∀ name, (ofRoot root').resolve name = (ofRoot root).resolve name) ∧
      (InOrder root → InOrder root' →
        ∀ name, (ofRoot root').ancestors name = (ofRoot root).ancestors name) :=
  ⟨fun _ _ _ hdecls => ⟨parents?_ofRoot hdecls hnodup, fun _ => resolve_recording_eq_iff hdecls⟩,
    fun _ hr => ⟨hr.resolve_eq, fun h h' => hr.ancestors_eq h h' hnodup⟩⟩

/-- A file of one namespace and the classes declared there, each with the one it extends. -/
def fileOf (scope : String) (classes : List (String × Option String)) : Tree := .ofEvents <|
  [.start .sourceFile, .start .namespaceDecl, .start .declaredName, .token .ident scope, .finish,
    .finish] ++
  classes.flatMap (fun (name, parent) =>
    [.start .classDecl, .start .declaredName, .token .ident name, .finish] ++
    parent.elim [] (fun parent =>
      [.start .extendsList, .start .nameRef, .token .ident parent, .finish, .finish]) ++
    [.finish]) ++
  [.finish]

def childBeforeBase : Node :=
  (fileOf "App" [("Child", some "Base"), ("Base", some "\\Exception")]).rootNode

def baseBeforeChild : Node :=
  (fileOf "App" [("Base", some "\\Exception"), ("Child", some "Base")]).rootNode

theorem child_before_base_declaration_order :
    ((ofRoot childBeforeBase).parents? "app\\child" =
        some (["Base"].filterMap (recording childBeforeBase []).resolve) ∧
      (recording childBeforeBase []).resolve "Base" = (ofRoot childBeforeBase).resolve "Base") ∧
    (ofRoot baseBeforeChild).ancestors "App\\Child" =
      (ofRoot childBeforeBase).ancestors "App\\Child" := by
  obtain ⟨hparents, hanswers⟩ :=
    ofRoot_declaration_order (show ((declsOf childBeforeBase _).map (·.name)).Nodup by decide +kernel)
  have hchild := hparents [] ⟨"app\\child", ["Base"]⟩ [⟨"app\\base", ["\\Exception"]⟩]
    (by decide +kernel)
  exact ⟨⟨hchild.1, (hchild.2 "Base").2 (by decide +kernel)⟩,
    (hanswers baseBeforeChild ⟨by decide +kernel, by decide +kernel, by decide +kernel⟩).2
      (by decide +kernel) (by decide +kernel) "App\\Child"⟩

theorem ancestors_of_extended_before_declared :
    (ofTree (fileOf "App" [("A", some "Exception"), ("Exception", none)])).parents? "app\\a" =
        some ["exception"] ∧
      (ofTree (fileOf "App" [("A", some "Exception"), ("Exception", none)])).resolve "Exception" =
        some "app\\exception" ∧
      (ofTree (fileOf "App" [("A", some "Exception"), ("Exception", none)])).ancestors "App\\A" =
        some ["exception", "throwable", "stringable"] ∧
      (ofTree (fileOf "App" [("Exception", none), ("A", some "Exception")])).ancestors "App\\A" =
        some ["app\\exception"] := by
  decide +kernel

end PhpLint.Hierarchy
