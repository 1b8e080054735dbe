import DerivativeHeaders.Files

/-! # Files in memory

A disk maps the paths of files and folders, as lists of names from the root, to what is there.
A path text is looked up name by name, from the root or from the working folder. -/
namespace DerivativeHeaders

inductive Entry where
  | folder
  | file (bytes : ByteArray)

abbrev Path := List String

structure Disk where
  working : Path
  entries : List (Path × Entry)

namespace Disk

def entry? (d : Disk) (p : Path) : Option Entry :=
  if p = [] then some .folder else (d.entries.find? fun x => x.1 == p).map Prod.snd

def putEntry (p : Path) (e : Entry) : List (Path × Entry) → List (Path × Entry)
  | [] => [(p, e)]
  | x :: rest => if x.1 = p then (p, e) :: rest else x :: putEntry p e rest

def put (d : Disk) (p : Path) (e : Entry) : Disk := { d with entries := putEntry p e d.entries }

def nameLimit : Nat := 255

/-- A path text is shorter than this, in bytes. -/
def pathLimit : Nat := 4096

/-- Follows names from a folder. All names but the last have to lead to folders; where the last
one leads need not exist. -/
def follow (d : Disk) (start : Path) : List String → Except FileFault Path
  | [] => .ok start
  | name :: rest =>
    if name = "." then follow d start rest
    else if name = ".." then follow d start.dropLast rest
    else if nameLimit < name.utf8ByteSize then .error .nameTooLong
    else if rest.isEmpty then .ok (start ++ [name])
    else
      match d.entry? (start ++ [name]) with
      | some .folder => follow d (start ++ [name]) rest
      | some (.file _) => .error .notFolder
      | none => .error .notFound

/-- The names in a path text. A slash at the end leads into the folder before it. -/
def names (path : List Char) : List String :=
  let pieces := (path.splitOn '/').map String.ofList
  pieces.filter (· ≠ "") ++ (if pieces.getLast? = some "" then ["."] else [])

def resolve (d : Disk) (path : String) : Except FileFault Path :=
  let cs := path.toList
  if '\x00' ∈ cs then .error .nulInPath
  else if cs = [] then .error .notFound
  else if pathLimit ≤ path.utf8ByteSize then .error .nameTooLong
  else d.follow (if cs.head? = some '/' then [] else d.working) (names cs)

def read (d : Disk) (path : String) : Except FileFault ByteArray := do
  match d.entry? (← d.resolve path) with
  | some (.file bytes) => return bytes
  | some .folder => throw .isFolder
  | none => throw .notFound

def write (d : Disk) (path text : String) : Except FileFault Disk := do
  let p ← d.resolve path
  match d.entry? p with
  | some .folder => throw .isFolder
  | _ => return d.put p (.file text.toUTF8)

end Disk

instance : Files (StateM Disk) where
  read path := do return (← get).read path
  write path text := do
    match (← get).write path text with
    | .ok d => do
      set d
      return .ok ()
    | .error cause => return .error cause

end DerivativeHeaders
