import JavaPrimer.Text.Basic

/-!
# Files

A working directory as a value: files with their contents, and directories. Paths are
followed component by component, as an operating system does. A path from the root of all
files is followed among what every system has there.

Definitions:
- `FileFault`, `FileFault.message`: why a file could not be read.
- `Path.parts`, `Path.clean`, `Path.join`: paths as texts.
- `FileTree`, `FileTree.ofFiles`, `FileTree.system`: the files, and those of every system.
- `FileTree.resolve`: where a path leads.
- `FileTree.read`, `FileTree.write`, `FileTree.subdirectories`: what can be done with them.
-/

namespace JavaPrimer

/-- Why a file could not be read. -/
inductive FileFault where
  | missing
  | notDirectory
  | isDirectory
  /-- The path, or one of its components, is longer than the system allows. -/
  | nameTooLong
  /-- The path has a character that no name can have. -/
  | badName
deriving DecidableEq

/-- The text of a fault for a path. -/
def FileFault.message (path : Text) : FileFault → Text
  | missing => "open " ++ path ++ ": no such file or directory"
  | notDirectory => "open " ++ path ++ ": not a directory"
  | isDirectory => "read " ++ path ++ ": is a directory"
  | nameTooLong => "open " ++ path ++ ": file name too long"
  | badName => "open " ++ path ++ ": invalid argument"

/-! ### Paths -/

namespace Path

/-- The components of a path, empty ones included. -/
def parts (path : Text) : List Text := path.splitOnP (· == Glyph.scalar '/')

/-- Whether a path starts at the root of all files. -/
def isRooted (path : Text) : Bool := path.head? == some (Glyph.scalar '/')

/-- One more component of a path whose components so far are given in reverse; a step up takes
back the last one, if there is one to take back. -/
def push (rooted : Bool) (above : List Text) (part : Text) : List Text :=
  if part.isEmpty || part == ("." : Text) then above
  else if part == (".." : Text) then
    match above with
    | [] => if rooted then [] else [part]
    | last :: rest => if last == part then part :: above else rest
  else part :: above

/-- The shortest path that means the same. -/
def clean (path : Text) : Text :=
  let rooted := isRooted path
  let body := List.intercalate (Text.ofString "/") ((parts path).foldl (push rooted) []).reverse
  if rooted then "/" ++ body else if body.isEmpty then "." else body

/-- A path continued by another, in its shortest form. -/
def join (path more : Text) : Text :=
  if path.isEmpty && more.isEmpty then []
  else if path.isEmpty then clean more else clean (path ++ "/" ++ more)

end Path

/-! ### Trees -/

/-- The files of a working directory by their components; no content means a directory. -/
structure FileTree where
  entries : List (List Text × Option Text)

namespace FileTree

/-- The tree with files of the paths and contents given; a path that ends in a slash is a
directory. -/
def ofFiles (files : List (Text × Text)) : FileTree where
  entries := files.map fun (path, content) =>
    ((Path.parts path).filter (!·.isEmpty),
      if path.getLast? = some (Glyph.scalar '/') then none else some content)

/-- The content of the file with the components given. -/
def contentAt? (tree : FileTree) (place : List Text) : Option Text :=
  (tree.entries.find? fun e => e.1 == place && e.2.isSome).bind (·.2)

/-- Whether the components given lead to a directory: one of its own, or one above an entry. -/
def isDirectory (tree : FileTree) (place : List Text) : Bool :=
  place.isEmpty || tree.entries.any fun e =>
    place.isPrefixOf e.1 && (place.length < e.1.length || e.2.isNone)

/-- The most bytes that a component can have. -/
def nameLimit : Nat := 255

/-- The bytes that a path must stay below. -/
def pathLimit : Nat := 4096

/-- Follows components from a place; `top` is where a step up from the top leads. Above the tree,
which is no place in it, there is nothing but directories further up. -/
def follow (tree : FileTree) (top : Option (List Text)) : Option (List Text) → List Text →
    Except FileFault (Option (List Text))
  | place, [] => .ok place
  | none, part :: rest =>
    if part.isEmpty || part == ("." : Text) || part == (".." : Text) then tree.follow top none rest
    else if nameLimit < part.toBytes.length then .error .nameTooLong
    else .error .missing
  | some place, part :: rest =>
    if !tree.isDirectory place then .error .notDirectory
    else if part.isEmpty || part == ("." : Text) then tree.follow top (some place) rest
    else if part == (".." : Text) then
      tree.follow top (if place.isEmpty then top else some place.dropLast) rest
    else if nameLimit < part.toBytes.length then .error .nameTooLong
    else
      let next := place ++ [part]
      if tree.isDirectory next || (tree.contentAt? next).isSome then
        tree.follow top (some next) rest
      else .error .missing

/-- What every system has at the root of all files: directories, and the device that is empty. -/
def system : FileTree :=
  ofFiles (["bin/", "dev/null", "etc/", "home/", "lib/", "opt/", "proc/", "root/", "run/", "sbin/",
    "sys/", "tmp/", "usr/", "var/"].map fun path => (Text.ofString path, []))

/-- The files that a path is followed among. -/
def standing (tree : FileTree) (path : Text) : FileTree :=
  if Path.isRooted path then system else tree

/-- Where a path leads among the files it is followed among, if it leads anywhere. The root is its
own parent. -/
def resolve (tree : FileTree) (path : Text) : Except FileFault (Option (List Text)) :=
  if path.isEmpty then .error .missing
  else if path.any (· == Glyph.scalar '\x00') then .error .badName
  else if pathLimit ≤ path.toBytes.length then .error .nameTooLong
  else (tree.standing path).follow (if Path.isRooted path then some [] else none) (some [])
    (Path.parts path)

/-- The content of a file. -/
def read (tree : FileTree) (path : Text) : Except FileFault Text := do
  let place ← tree.resolve path
  match place.bind (tree.standing path).contentAt? with
  | some content => .ok content
  | none => .error .isDirectory

/-- The tree after writing a file that is there, or a new one at the top. What is not below the
working directory takes what is written and shows nothing of it. -/
def write (tree : FileTree) (path content : Text) : FileTree :=
  let place := match tree.resolve path with
    | .ok place => place
    | .error _ => some [path]
  match place with
  | none => tree
  | some place =>
    if Path.isRooted path || tree.isDirectory place then tree
    else ⟨tree.entries.filter (·.1 != place) ++ [(place, some content)]⟩

/-- The names of the directories in a directory. -/
def subdirectories (tree : FileTree) (place : List Text) : List Text :=
  let below := tree.entries.filterMap fun e =>
    if place.isPrefixOf e.1 then e.1[place.length]? else none
  (below.eraseDups).filter fun name => tree.isDirectory (place ++ [name])

/-- The files with their paths. -/
def files (tree : FileTree) : List (Text × Text) :=
  tree.entries.filterMap fun e =>
    e.2.map fun content => (List.intercalate (Text.ofString "/") e.1, content)

end FileTree

end JavaPrimer
