import PhpLint.Parse.Fragment
import PhpLint.Tree.Edit

/-!
Fixes and the edits they are carried out by. A fix names its nodes by handles, so that it can be
seen to be out of date.
-/

namespace PhpLint

inductive Fix where
  /-- Fold the call `eliminate` into the call `patch`, and drop the statement that held it. -/
  | mergeCalls (patch eliminate : Handle) (shortArrays : Bool)
  /-- Put in place of a search array the one literal that it repeats. -/
  | simplifySearch (array : Handle) (replacement : String)
  deriving DecidableEq, Inhabited, Repr

def Fix.name : Fix → String
  | mergeCalls .. => "Merge str_replace(...) calls"
  | simplifySearch .. => "Simplify this argument"

def Fix.handles : Fix → List Handle
  | mergeCalls patch eliminate _ => [patch, eliminate]
  | simplifySearch array _ => [array]

/-- One structural edit; texts become nodes when it is applied. -/
inductive Edit where
  | insertSibling (anchor : NodeId) (after : Bool) (kind : FragmentKind) (text : String)
  | replace (target : NodeId) (kind : FragmentKind) (text : String)
  | delete (target : NodeId)
  deriving DecidableEq, Inhabited, Repr

structure EditPlan where
  name : String
  edits : List Edit
  deriving DecidableEq, Inhabited, Repr

inductive EditError where
  | invalidated (node : NodeId)
  | malformed (reason : String)
  | parse (error : ParseError)
  | structural (error : StructureError)
  | unscannable (fault : Token.Fault)
  deriving DecidableEq, Inhabited, Repr

def ParseError.display (e : ParseError) : String :=
  "parse error at offset " ++ toString e.offset ++ ": " ++ e.message

def EditError.message : EditError → String
  | invalidated node =>
    "node " ++ NodeId.render node ++ " was changed or removed after the match was reported"
  | malformed reason => "cannot apply fix: " ++ reason
  | parse e => e.display
  | structural e => e.message
  | unscannable fault => "cannot apply fix: " ++ fault.message

end PhpLint
