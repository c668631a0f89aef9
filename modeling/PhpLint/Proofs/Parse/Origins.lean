import PhpLint.Proofs.Concrete.Origins
import PhpLint.Proofs.Parse.Lossless

/-! In the tree of a parse every token is a whole piece of the grammar's tree, or white space; if
there are errors, some text may have been lost as well. -/

namespace PhpLint

namespace Lower

variable {s : Source}

theorem aligned_start (hbase : Text.Boundary s.text s.base) : Aligned s (start s) := by
  obtain ⟨before, behind, htext, hlen⟩ := hbase
  refine ⟨before, ?_, hlen⟩
  rw [start, ← hlen, htext, Text.dropBytes_byteLength]

/-- The pieces of a whole tree, behind the base. -/
theorem rootPieces_walk {root : Concrete} (hroot : root.Proper s.text s.base)
    (hbase : Text.Boundary s.text s.base) :
    Walk s root.Below (fun _ _ => False) (start s) (rootPieces s root (start s)).1
      (rootPieces s root (start s)).2 := by
  have hstart := aligned_start hbase
  have hwalked : ∀ y ∈ root.children, Walked s root.Below y := fun y hy =>
    lower_walk (fun _ hx _ hy => .child hx hy) (hroot.fits.children y hy)
      (hroot.nested.children y hy) (.child .root hy)
  have hclear : ∀ y ∈ root.children, Clear (start s).pos y.start y.stop := hroot.beside
  rw [rootPieces]
  split
  next => exact (minds_lowerAll_plain hroot.nested hwalked _ hstart hclear).mono fun _ _ => False.elim
  next hkind =>
    exact (lower_error_walk hroot.fits hroot.nested hwalked _ (hroot.kind.resolve_left hkind) hstart
      hclear).mono fun _ _ => False.elim

theorem lowerRoot_walk {root : Concrete} (hroot : root.Proper s.text s.base)
    (hbase : Text.Boundary s.text s.base) :
    ∃ gs d, lowerRoot s root (Text.byteLength s.text) (start s) = (.node .sourceFile gs, d) ∧
      Walk s root.Below (fun _ _ => False) (start s) gs d := by
  have hpieces := rootPieces_walk hroot hbase
  have hgap := gap_walk (P := root.Below) (Text.boundary_byteLength s.text) hpieces.aligned
  exact ⟨_, _, lowerRoot_eq .., (hpieces.append hgap).mono fun _ _ => False.elim⟩

end Lower

namespace Parse

/-- What the tree of a parse is made of. -/
structure Accounts (text : List Char) (base : Nat) (root : Concrete) (lost : Prop)
    (gs : List Green) : Prop where
  leaves : Green.Along (Lower.Origin ⟨text, base⟩ root.Below lost) base (Green.leavesAll gs)
  nodes : ∀ n ∈ Green.nodesAll gs, Lower.Sorted lost n

theorem accounts_of_after_eq_ok {grammar : Grammar} {source : String} {base : Nat}
    (hbase : Text.Boundary source.toList base) {root : Concrete} (hg : grammar source = some root)
    (hroot : root.Proper source.toList base) {p : Parse} (hp : after grammar source base = .ok p) :
    ∃ gs, p.tree = (Green.node .sourceFile gs).toTree ∧
      Accounts source.toList base root (p.errors ≠ []) gs := by
  obtain ⟨gs, d, hlower, hwalk⟩ := Lower.lowerRoot_walk (s := ⟨source.toList, base⟩) hroot hbase
  rw [after_eq hg hlower] at hp
  split at hp
  next => cases hp
  next hfault =>
    cases hp
    have hlost : Lower.Flawed d → d.errors ≠ [] := fun h => h.resolve_right (by simp [hfault])
    exact ⟨gs, rfl, hwalk.leaves.mono fun _ _ h => h.mono hlost, fun n hn =>
      ⟨fun hk => hlost ((hwalk.nodes n hn).1 hk), (hwalk.nodes n hn).2⟩⟩

end Parse

end PhpLint
