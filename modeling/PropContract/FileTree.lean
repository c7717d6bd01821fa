import PropContract.Path
import PropContract.Table

/-!
A tree of files, as a value. Files are kept under their normalized absolute paths; a directory
is there when a file lies below it or when it was made. Symbolic links are left out, and a path
with a slash or `/.` after a file is read as the file, where a system refuses it.
-/

namespace PropContract

inductive FileContent where
  | text (value : String)
  | binary (bytes : List UInt8)
  deriving DecidableEq, Repr, Inhabited

structure FileTree where
  files : Table FileContent := []
  directories : List String := []
  deriving Repr, Inhabited

inductive ReadFault where
  | missing
  | directory
  | notText
  deriving DecidableEq, Repr

namespace ReadFault

def message : ReadFault → String
  | missing => "No such file or directory (os error 2)"
  | directory => "Is a directory (os error 21)"
  | notText => "stream did not contain valid UTF-8"

end ReadFault

inductive WriteFault where
  | occupied
  | notDirectory
  | directory
  deriving DecidableEq, Repr

namespace WriteFault

def message : WriteFault → String
  | occupied => "File exists (os error 17)"
  | notDirectory => "Not a directory (os error 20)"
  | directory => "Is a directory (os error 21)"

end WriteFault

namespace FileTree

def empty : FileTree := {}

def ofFiles (files : List (String × FileContent)) : FileTree :=
  { files := Table.ofEntries (files.map fun (p, c) => ((Path.mk p).normalize.text, c)) }

def hasDirectory (tree : FileTree) (names : List String) : Bool :=
  let dir := Path.ofNames true names
  names.isEmpty || tree.directories.contains dir.text ||
    tree.files.any fun (p, _) => (Path.mk p).startsWith dir && p != dir.text

/-- Follows the components of a path; only a directory that is there can be left by `..`. -/
def resolveFrom (tree : FileTree) : List String → List Path.Component → Option (List String)
  | names, [] => some names
  | names, .root :: rest | names, .here :: rest => resolveFrom tree names rest
  | names, .up :: rest =>
    if tree.hasDirectory names then resolveFrom tree names.dropLast rest else none
  | names, .name n :: rest => resolveFrom tree (names ++ [n]) rest

def resolve? (tree : FileTree) (p : Path) : Option String :=
  (tree.resolveFrom [] p.components).map fun names => (Path.ofNames true names).text

def isFile (tree : FileTree) (p : Path) : Bool :=
  match tree.resolve? p with
  | some place => tree.files.contains place
  | none => false

def read (tree : FileTree) (p : Path) : Except ReadFault String :=
  match tree.resolve? p with
  | none => .error .missing
  | some place =>
    match tree.files.get? place with
    | some (.text s) => .ok s
    | some (.binary _) => .error .notText
    | none =>
      if tree.hasDirectory (Path.mk place).names then .error .directory else .error .missing

def filesBelow (tree : FileTree) (p : Path) : List Path :=
  match tree.resolve? p with
  | none => []
  | some place =>
    let found := tree.files.keys.filterMap fun file =>
      if file = place then some p else ((Path.mk file).relativeTo? ⟨place⟩).map p.join
    found.mergeSort Path.le

/-- Makes the directories of a path that are missing; those made before a fault stay. The
directory with the given names is there, and `made` says whether one was missing already. -/
def makeDirectoriesFrom (tree : FileTree) (made : Bool) (names : List String) :
    List Path.Component → FileTree × Option WriteFault
  | [] => (tree, none)
  | .root :: rest | .here :: rest => makeDirectoriesFrom tree made names rest
  | .up :: rest => makeDirectoriesFrom tree made names.dropLast rest
  | .name n :: rest =>
    let place := (Path.ofNames true (names ++ [n])).text
    if tree.files.contains place then
      (tree, some (if made || rest.isEmpty then .occupied else .notDirectory))
    else if tree.hasDirectory (names ++ [n]) then
      makeDirectoriesFrom tree made (names ++ [n]) rest
    else
      makeDirectoriesFrom { tree with directories := tree.directories ++ [place] } true
        (names ++ [n]) rest

def makeDirectories (tree : FileTree) (p : Path) : FileTree × Option WriteFault :=
  tree.makeDirectoriesFrom false [] p.components

def write (tree : FileTree) (p : Path) (text : String) : FileTree × Option WriteFault :=
  match tree.resolve? p with
  | none => (tree, some .notDirectory)
  | some place =>
    if !tree.files.contains place && tree.hasDirectory (Path.mk place).names then
      (tree, some .directory)
    else ({ tree with files := tree.files.put place (.text text) }, none)

def changesSince (after before : FileTree) : List (String × FileContent) :=
  (after.files.filter fun (p, content) => before.files.get? p != some content).mergeSort
    fun a b => decide (a.1 ≤ b.1)

end FileTree

end PropContract
