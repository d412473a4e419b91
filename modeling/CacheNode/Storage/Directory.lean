import CacheNode.Table

/-!
# CacheNode — directories

A directory maps names to plain files and to folders. Names are byte strings of at most 255
bytes. A file can be written, moved over another file, and removed; a folder in the way makes
each of these fail.

A directory is listed with the latest names first. A name is as old as the file or folder that
was made or moved there; writing to a file that is there already leaves its age alone.

* `Directory.write`, `Directory.move`, `Directory.remove` — the changes, each of which may fail
  and then changes nothing;
* `Directory.listing` — what a directory holds, the latest names first.
-/

namespace CacheNode

/-- What a name in a directory stands for. -/
inductive Inode where
  | file (content : Bytes)
  | folder
deriving DecidableEq, Repr

/-- What stands under a name, and how many names had been placed before it. -/
structure Placement where
  inode : Inode
  serial : Nat
deriving DecidableEq, Repr

/-- Why a change to a directory failed. -/
inductive DirectoryError where
  | nameTooLong
  | isFolder
  | notFound
deriving DecidableEq, Repr

/-- The names in a directory and what stands under them. -/
structure Directory where
  placements : Table Placement := .empty
  /-- how many names have been placed so far -/
  placed : Nat := 0

namespace Directory

instance : Inhabited Directory := ⟨{}⟩

/-- The longest name that a directory can hold, in bytes. -/
def nameLimit : Nat := 255

/-- The names, in ascending order. -/
def names (d : Directory) : List Bytes := d.placements.keys

/-- What a name stands for. -/
def inode? (d : Directory) (name : Bytes) : Option Inode :=
  (d.placements.get? name).map Placement.inode

/-- The content of a plain file. -/
def content? (d : Directory) (name : Bytes) : Option Bytes :=
  match d.inode? name with
  | some (.file content) => some content
  | _ => none

/-- The names with what they stand for, the latest first. -/
def listing (d : Directory) : List (Bytes × Inode) :=
  (d.placements.rows.mergeSort fun a b => b.2.serial ≤ a.2.serial).map fun row =>
    (row.1, row.2.inode)

/-- Places a file or folder under a name, in place of what stood there. -/
def place (d : Directory) (name : Bytes) (inode : Inode) : Directory :=
  ⟨d.placements.insert name ⟨inode, d.placed⟩, d.placed + 1⟩

/-- Writes a file, in place of one with the same name. -/
def write (d : Directory) (name content : Bytes) : Except DirectoryError Directory :=
  if nameLimit < name.length then .error .nameTooLong
  else
    match d.placements.get? name with
    | some ⟨.folder, _⟩ => .error .isFolder
    | some ⟨.file _, serial⟩ =>
      .ok { d with placements := d.placements.insert name ⟨.file content, serial⟩ }
    | none => .ok (d.place name (.file content))

/-- Gives a file another name, in place of the file that had it. -/
def move (d : Directory) (source target : Bytes) : Except DirectoryError Directory :=
  if nameLimit < target.length then .error .nameTooLong
  else
    match d.inode? source, d.inode? target with
    | some (.file _), some .folder => .error .isFolder
    | some (.file content), _ =>
      .ok (({ d with placements := d.placements.erase source } : Directory).place target
        (.file content))
    | some .folder, _ => .error .isFolder
    | none, _ => .error .notFound

/-- Removes a file. -/
def remove (d : Directory) (name : Bytes) : Except DirectoryError Directory :=
  if nameLimit < name.length then .error .nameTooLong
  else
    match d.inode? name with
    | some (.file _) => .ok { d with placements := d.placements.erase name }
    | some .folder => .error .isFolder
    | none => .error .notFound

/-- Makes a folder where there is nothing yet. -/
def makeFolder (d : Directory) (name : Bytes) : Except DirectoryError Directory :=
  if nameLimit < name.length then .error .nameTooLong
  else
    match d.inode? name with
    | some _ => .error .isFolder
    | none => .ok (d.place name .folder)

end Directory

/-- The wording of a failed change. -/
def DirectoryError.reason : DirectoryError → String
  | nameTooLong => "file name too long"
  | isFolder => "is a directory"
  | notFound => "no such file or directory"

end CacheNode
