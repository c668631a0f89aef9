import PhpLint.FileSystem.Path

/-!
A file system without links: files and folders under the names that lead to them from the root. A
folder also exists wherever something stands in it.
-/

namespace PhpLint

inductive FileFault where
  | missing
  | notFolder
  | isFolder
  | alreadyThere
  | notText
  deriving DecidableEq, Inhabited, Repr

def FileFault.message : FileFault → String
  | missing => "No such file or directory (os error 2)"
  | notFolder => "Not a directory (os error 20)"
  | isFolder => "Is a directory (os error 21)"
  | alreadyThere => "File exists (os error 17)"
  | notText => "stream did not contain valid UTF-8"

structure FileSystem where
  files : List (List String × ByteArray)
  folders : List (List String)
  /-- The working folder, where relative paths start. -/
  current : List String
  deriving Inhabited

namespace FileSystem

/-- The absolute path of the working folder. -/
def currentPath (fs : FileSystem) : Path :=
  ⟨if fs.current.isEmpty then ["", ""] else "" :: fs.current⟩

def bytesAt? (fs : FileSystem) (names : List String) : Option ByteArray := fs.files.lookup names

def isFolderAt (fs : FileSystem) (names : List String) : Bool :=
  names.isPrefixOf fs.current || fs.folders.any (names.isPrefixOf ·)
    || fs.files.any fun f => names.isPrefixOf f.1 && names != f.1

/-- One step along a path, out of a folder that must exist. -/
def enter (fs : FileSystem) (here : List String) (piece : String) :
    Except FileFault (List String) :=
  if !fs.isFolderAt here then
    .error (if (fs.bytesAt? here).isSome then .notFolder else .missing)
  else if piece = "" ∨ piece = "." then .ok here
  else if piece = ".." then .ok here.dropLast
  else .ok (here ++ [piece])

/-- The names a path leads to. All folders on the way exist, the last name may be new. -/
def resolve (fs : FileSystem) (p : Path) : Except FileFault (List String) :=
  if p.parts.isEmpty then .error .missing
  else if p.isAbsolute then p.pieces.foldlM fs.enter []
  else p.pieces.foldlM fs.enter fs.current

def has (fs : FileSystem) (p : Path) : Bool :=
  match fs.resolve p with
  | .ok names => fs.isFolderAt names || (fs.bytesAt? names).isSome
  | .error _ => false

def isFile (fs : FileSystem) (p : Path) : Bool :=
  match fs.resolve p with
  | .ok names => (fs.bytesAt? names).isSome
  | .error _ => false

def read (fs : FileSystem) (p : Path) : Except FileFault ByteArray := do
  let names ← fs.resolve p
  if fs.isFolderAt names then throw .isFolder
  match fs.bytesAt? names with
  | some bytes => return bytes
  | none => throw .missing

/-- The text of a file, which must be UTF-8. -/
def readText (fs : FileSystem) (p : Path) : Except FileFault String := do
  match String.fromUTF8? (← fs.read p) with
  | some text => return text
  | none => throw .notText

def put (files : List (List String × ByteArray)) (names : List String) (bytes : ByteArray) :
    List (List String × ByteArray) :=
  match files with
  | [] => [(names, bytes)]
  | f :: rest => if f.1 = names then (names, bytes) :: rest else f :: put rest names bytes

theorem lookup_put (files : List (List String × ByteArray)) (names : List String)
    (bytes : ByteArray) : (put files names bytes).lookup names = some bytes := by
  induction files with
  | nil => simp [put]
  | cons f rest ih =>
    obtain ⟨key, old⟩ := f
    by_cases h : key = names
    · simp [put, h]
    · simp [put, h, List.lookup_cons, beq_eq_false_iff_ne.2 (Ne.symm h), ih]

/-- Writes a file, whose folder must exist. -/
def write (fs : FileSystem) (p : Path) (bytes : ByteArray) : Except FileFault FileSystem := do
  let names ← fs.resolve p
  if fs.isFolderAt names then throw .isFolder
  return { fs with files := put fs.files names bytes }

/-- Writes behind the end of a file, which is made if it does not exist. -/
def append (fs : FileSystem) (p : Path) (bytes : ByteArray) : Except FileFault FileSystem := do
  let names ← fs.resolve p
  fs.write p (((fs.bytesAt? names).getD .empty) ++ bytes)

/-- The names a path leads to when folders that are missing are made on the way. -/
def resolveNew (fs : FileSystem) (p : Path) : Except FileFault (List String) :=
  p.pieces.foldlM (fun here piece =>
    if (fs.bytesAt? here).isSome then .error .notFolder
    else if piece = "" ∨ piece = "." then .ok here
    else if piece = ".." then .ok here.dropLast
    else .ok (here ++ [piece])) (if p.isAbsolute then [] else fs.current)

/-- Makes a folder and those it stands in. -/
def makeFolders (fs : FileSystem) (p : Path) : Except FileFault FileSystem := do
  let names ← fs.resolveNew p
  if (fs.bytesAt? names).isSome then throw .alreadyThere
  return { fs with folders := names :: fs.folders }

/-- The files that another state has and this one has not, or with other bytes. -/
def changed (before after : FileSystem) : List (List String × ByteArray) :=
  after.files.filter fun f => before.bytesAt? f.1 != some f.2

end FileSystem

end PhpLint
