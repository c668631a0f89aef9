import PhpLint.FileSystem.Basic

/-!
Finding PHP sources. A path that is a file stands for itself, any other path for the sources below
it; folders named `vendor` hold code of others and are left out, whether found or asked for.
-/

namespace PhpLint.FileSystem

def isSource (p : Path) : Bool := p.extension? == some "php"

def foreignFolder : String := "vendor"

/-- The files below a folder, as paths that continue the one given. -/
def filesBelow (fs : FileSystem) (folder : Path) : List Path :=
  match fs.resolve folder with
  | .error _ => []
  | .ok names =>
    (fs.files.filter fun f => names.isPrefixOf f.1 && names != f.1).filterMap fun f =>
      let rest := f.1.drop names.length
      if rest.contains foreignFolder then none else some (folder.join ⟨rest⟩)

def sourcesOf (fs : FileSystem) (p : Path) : List Path :=
  if fs.isFile p then [p].filter isSource
  else if p.fileName? == some foreignFolder then []
  else (fs.filesBelow p).filter isSource

/-- Neighbours that have the same parts become one, the first. -/
def dropRepeats : List Path → List Path
  | [] => []
  | p :: rest => p :: (dropRepeats rest).dropWhile fun q => p.parts == q.parts

/-- The sources that some paths stand for, in the order of their parts. -/
def sources (fs : FileSystem) (paths : List Path) : List Path :=
  dropRepeats ((paths.flatMap fs.sourcesOf).mergeSort fun p q => !q.precedes p)

end PhpLint.FileSystem
