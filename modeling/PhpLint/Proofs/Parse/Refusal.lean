import PhpLint.Fix.Apply
import PhpLint.Proofs.Concrete.Reporting
import PhpLint.Proofs.Parse.Lossless

namespace PhpLint

namespace Lower

/-- The same for the pieces that make up a file. -/
def RootSeen (s : Source) (root : Concrete) : Prop :=
  if root.kind = "program" then ∃ x ∈ root.children, Seen s x else Seen s root

variable {s : Source} {root : Concrete}

theorem lowerRoot_reports (hmarked : root.Marked) (stop : Nat) :
    Reports (lowerRoot s root stop) (RootSeen s root) := by
  have hpieces : Reports (rootPieces s root) (RootSeen s root) := by
    rw [rootPieces, RootSeen]
    split
    next =>
      exact lowerAll_plain_reports (fun x hx => lower_reports (hmarked.children x hx)) root.head
    next => exact lower_reports hmarked _ .plain
  intro c hc
  rw [lowerRoot_eq]
  exact Reports.gap s stop _ (.inl (hpieces c hc))

end Lower

namespace Parse

variable {grammar : Grammar} {source : String} {root : Concrete}

theorem errors_ne_nil_of_seen {base : Nat} (hg : grammar source = some root)
    (hmarked : root.Marked) (hseen : Lower.RootSeen ⟨source.toList, base⟩ root) {p : Parse}
    (hp : after grammar source base = .ok p) : p.errors ≠ [] := by
  have herrors := Lower.lowerRoot_reports hmarked (Text.byteLength source.toList)
    (Lower.start ⟨source.toList, base⟩) (.inr hseen)
  rw [after_eq hg rfl] at hp
  split at hp
  next => cases hp
  next =>
    cases hp
    exact herrors

/-- A file with something missing or an error in its concrete tree, seen by lowering, is not taken:
either it is not parsed at all, or it is with errors, and fixing stops at the first of them. -/
theorem file_refused (grammar : Grammar) (source : String) (root : Concrete)
    (hg : grammar source = some root) (hmarked : root.Marked)
    (hseen : Lower.RootSeen ⟨source.toList, 0⟩ root) (options : Options) :
    (∃ fault, file grammar source = .error fault ∧
        fixSource grammar options source = .error (.unscannable fault)) ∨
      ∃ p e es, file grammar source = .ok p ∧ p.errors = e :: es ∧
        fixSource grammar options source = .error (.rejected e) := by
  cases hfile : file grammar source with
  | error fault => exact .inl ⟨fault, rfl, by rw [fixSource, hfile]⟩
  | ok p =>
    obtain ⟨e, es, herrors⟩ :=
      List.exists_cons_of_ne_nil (errors_ne_nil_of_seen hg hmarked hseen hfile)
    exact .inr ⟨p, e, es, rfl, herrors, by rw [fixSource, hfile]; simp only [herrors]⟩

/-- A piece marked as faulty. -/
def faultyPiece (kind : String) (start stop : Nat) (children : List Concrete) : Concrete :=
  ⟨⟨kind, true, false, false, true, start, stop, none⟩, children⟩

def missingPiece (kind : String) (start : Nat) : Concrete :=
  ⟨⟨kind, false, true, false, true, start, start, none⟩, []⟩

/-- A statement that lacks its semicolon. -/
theorem file_refused_without_semicolon :
    let root := faultyPiece "program" 0 2 [faultyPiece "expression_statement" 0 2
      [piece "variable_name" 0 2 [], missingPiece ";" 2]]
    (∃ fault, file (fun _ => some root) "$x" = .error fault ∧
        fixSource (fun _ => some root) .standard "$x" = .error (.unscannable fault)) ∨
      ∃ p e es, file (fun _ => some root) "$x" = .ok p ∧ p.errors = e :: es ∧
        fixSource (fun _ => some root) .standard "$x" = .error (.rejected e) := by
  refine file_refused _ _ _ rfl ?_ ?_ _
  · simp [faultyPiece, missingPiece, piece]
  · rw [Lower.RootSeen, if_pos (by simp [faultyPiece])]
    refine ⟨_, List.mem_cons_self, .deeper (y := missingPiece ";" 2) ?_ ?_ ?_ (.missing rfl)⟩
    all_goals simp [Lower.Wide, Concrete.kind, faultyPiece]

/-- A missing piece in one that has no width: the file is taken as if nothing were wrong. -/
theorem exists_faulty_file_taken : ∃ (grammar : Grammar) (source : String) (root : Concrete),
    grammar source = some root ∧ root.Fits source.toList ∧ root.Nested ∧ root.Marked ∧
      root.Faulty ∧ ∃ p, file grammar source = .ok p ∧ p.errors = [] ∧
        ∀ options, ∃ fixed, fixSource grammar options source = .ok fixed := by
  have hascii : ∀ c ∈ "$x".toList, c.utf8Size = 1 := by simp [Char.utf8Size]
  let root := faultyPiece "program" 0 2 [faultyPiece "static_modifier" 0 0
    [missingPiece "static" 0], piece "variable_name" 0 2 []]
  have hfits : root.Fits "$x".toList := by
    refine fits_of_ascii hascii (by decide) (by decide) ?_
    rw [List.forall_mem_cons, List.forall_mem_singleton]
    refine ⟨fits_of_ascii hascii (by decide) (by decide) ?_,
      fits_piece hascii _ (by decide) (by decide) (by simp)⟩
    rw [List.forall_mem_singleton]
    exact fits_of_ascii hascii (by decide) (by decide) (by simp)
  have hfile : ∃ p, file (fun _ => some root) "$x" = .ok p ∧ p.errors = [] := ⟨_, rfl, rfl⟩
  obtain ⟨p, hp, herrors⟩ := hfile
  refine ⟨fun _ => some root, "$x", root, rfl, hfits, ?_, ?_, ?_, p, hp, herrors, fun options => ?_⟩
  · simp [root, Concrete.start, Concrete.stop, faultyPiece, missingPiece, piece]
  · simp [root, faultyPiece, missingPiece, piece]
  · simp [root, faultyPiece, missingPiece, piece]
  · rw [fixSource, hp]
    simp only [herrors]
    exact ⟨_, rfl⟩

end Parse

end PhpLint
