/-
Folders: what a file name leads to, among files that are known.

A name is a path of parts between slashes, walked from left to right. An empty part or a dot stays where it is, two dots
go one step up, and any other part must be in the folder reached so far. A walk can leave the folder it started in; the
folders around it are there, and nothing else in them is known. Past a file no walk goes on, not even by an empty part,
so a slash behind the name of a file is a fault.

Names have limits, counted in bytes of their UTF-8 form: one for each part, checked where the part is looked up, and one
for the whole, checked first.
-/
namespace SchemeStack

/-- what a file name leads to -/
inductive FileEntry where
  | text (content : String)
  | directory
  | notDirectory
  | nameTooLong
  | denied
  | missing
  deriving DecidableEq

/-- files by the parts of their paths -/
structure Folder where
  files : List (List String × String)

namespace Folder

/-- the longest part of a name, in bytes -/
def maxPart : Nat := 255

/-- the longest name, in bytes -/
def maxName : Nat := 4095

def parts (name : String) : List String := name.splitOn "/"

def ofNames (files : List (String × String)) : Folder := ⟨files.map fun (name, content) => (parts name, content)⟩

/-- how far a walk has come -/
inductive Place where
  /-- in the folder of that path -/
  | inside (path : List String)
  /-- in a folder around the one it started in -/
  | outside
  | file (content : String)

/-- there is a file below the path -/
def isFolder (f : Folder) (path : List String) : Bool :=
  f.files.any fun (name, _) => path.isPrefixOf name && path.length < name.length

/-- the place that a part of a name leads to, or what is wrong with it -/
def walkPart (f : Folder) : Place → (part : String) → Except FileEntry Place
  | .file _, _ => .error .notDirectory
  | .outside, part =>
    if ["", ".", ".."].contains part then .ok .outside
    else .error (if maxPart < part.utf8ByteSize then .nameTooLong else .missing)
  | .inside path, part =>
    if part = "" ∨ part = "." then .ok (.inside path)
    else if part = ".." then .ok (if path.isEmpty then .outside else .inside path.dropLast)
    else if maxPart < part.utf8ByteSize then .error .nameTooLong
    else match f.files.lookup (path ++ [part]) with
      | some content => .ok (.file content)
      | none => if f.isFolder (path ++ [part]) then .ok (.inside (path ++ [part])) else .error .missing

/-- the place where a name starts: a slash in front leads out of the folder -/
def startOf (name : String) : Place := if (parts name).head? = some "" then .outside else .inside []

/-- what a name leads to -/
def entry (f : Folder) (name : String) : FileEntry :=
  if name = "" then .missing
  else if maxName < name.utf8ByteSize then .nameTooLong
  else match (parts name).foldlM f.walkPart (startOf name) with
    | .error fault => fault
    | .ok (.file content) => .text content
    | .ok _ => .directory

end Folder

end SchemeStack
