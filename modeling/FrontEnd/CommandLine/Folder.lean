/-! # Folders

Where files are read from, and what can go wrong. The commands read through `Files`, whatever stands behind
them; `Folder.read` is one that is computed, for runs without a file system.

A folder is a list of files under relative names. The parts of a name are separated by slashes and are
followed one by one: a dot stays where it is, two dots lead to the folder around, and any other part leads
into the folder that is reached so far. A name may lead out of the folder, into the system around it.
-/

namespace FrontEnd

/-- Why a file cannot be read. -/
inductive ReadError where
  | notFound
  | notFolder
  | isFolder
  | nameTooLong
  /-- The bytes are no text in UTF-8. -/
  | notText
  | other (message : String)
  deriving DecidableEq

/-- The error as the system words it. -/
def ReadError.message : ReadError → String
  | .notFound => "No such file or directory (os error 2)"
  | .notFolder => "Not a directory (os error 20)"
  | .isFolder => "Is a directory (os error 21)"
  | .nameTooLong => "File name too long (os error 36)"
  | .notText => "stream did not contain valid UTF-8"
  | .other message => message

/-- What the program reads its files from: the bytes under a name. -/
abbrev Files := String → Except ReadError ByteArray

def Files.text (files : Files) (name : String) : Except ReadError String :=
  match files name with
  | .ok bytes =>
    match String.fromUTF8? bytes with
    | some text => .ok text
    | none => .error .notText
  | .error e => .error e

/-- Files under relative names. Of two files of one name the last is there. -/
structure Folder where
  files : List (String × ByteArray)

namespace Folder

def parts (name : String) : List String :=
  (name.splitOn "/").filter fun part => part ≠ "" ∧ part ≠ "."

/-- Whether a name asks for a folder. -/
def asksFolder (name : String) : Bool :=
  match (name.splitOn "/").getLast? with
  | some last => last == "" || last == "." || last == ".."
  | none => false

def file? (f : Folder) (place : List String) : Option ByteArray :=
  (f.files.reverse.find? fun file => parts file.1 = place).map Prod.snd

/-- Whether a place is a folder: there are files in it, or it is the root. -/
def isFolder (f : Folder) (place : List String) : Bool :=
  place = [] ∨ f.files.any fun file => place.isPrefixOf (parts file.1) ∧ parts file.1 ≠ place

/-- The longest name of a file or a folder, in bytes. -/
def longestName : Nat := 255

/-- The length from which on a whole name is too long, in bytes. -/
def tooLong : Nat := 4096

/-! ## Places -/

/-- The folder that a place is counted from. -/
inductive Base where
  /-- The folder itself. -/
  | own
  /-- A folder that it lies in. -/
  | above
  /-- The root of the system. -/
  | root
  deriving DecidableEq

/-- The folder around a base. The root is its own. -/
def Base.parent : Base → Base
  | .own => .above
  | .above => .above
  | .root => .root

/-- A place of the system: the parts of a name, from a base on. -/
structure Place where
  base : Base
  path : List String
  deriving DecidableEq

def Place.parent (place : Place) : Place :=
  if place.path = [] then ⟨place.base.parent, []⟩ else ⟨place.base, place.path.dropLast⟩

def Place.child (place : Place) (part : String) : Place := ⟨place.base, place.path ++ [part]⟩

/-- What stands at a place. -/
inductive Entry where
  | nothing
  | folder
  | file (bytes : ByteArray)

/-- The folders that a system has right under its root. -/
def systemFolders : List String :=
  ["bin", "boot", "dev", "etc", "home", "lib", "media", "mnt", "opt", "proc", "root", "run", "sbin",
    "srv", "sys", "tmp", "usr", "var"]

/-- What stands at a place under the root of the system: the folders that every system has, and the device
that reads as an empty file. -/
def systemEntry : List String → Entry
  | [] => .folder
  | [name] => if name ∈ systemFolders then .folder else .nothing
  | path => if path = ["dev", "null"] then .file .empty else .nothing

/-- What stands at a place. Nothing is known of the folders above, but that they are there. -/
def entry (f : Folder) : Place → Entry
  | ⟨.own, path⟩ =>
    match f.file? path with
    | some bytes => .file bytes
    | none => if f.isFolder path then .folder else .nothing
  | ⟨.above, path⟩ => if path = [] then .folder else .nothing
  | ⟨.root, path⟩ => systemEntry path

/-- The place that one part of a name leads to. Only a folder leads on. -/
def step (f : Folder) (place : Place) (part : String) : Except ReadError Place :=
  match f.entry place with
  | .nothing => .error .notFound
  | .file _ => .error .notFolder
  | .folder =>
    if part = ".." then .ok place.parent
    else if longestName < part.utf8ByteSize then .error .nameTooLong
    else .ok (place.child part)

/-- The place that a name starts from. -/
def start (name : String) : Place :=
  if name.toList.head? = some '/' then ⟨.root, []⟩ else ⟨.own, []⟩

/-- The place that a name leads to. -/
def resolve (f : Folder) (name : String) : Except ReadError Place :=
  (parts name).foldlM f.step (start name)

def read (f : Folder) : Files := fun name =>
  if tooLong ≤ name.utf8ByteSize then .error .nameTooLong
  else do
    match f.entry (← f.resolve name) with
    | .nothing => .error .notFound
    | .folder => .error .isFolder
    | .file bytes => if asksFolder name then .error .notFolder else .ok bytes

end Folder

end FrontEnd
