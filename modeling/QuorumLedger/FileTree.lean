import QuorumLedger.Bytes

namespace QuorumLedger

-- Why a file gives no text.
inductive FileError where
  | notFound
  | notDirectory
  | isDirectory
  | nameTooLong
  | nulInName
  | notText
  | other (reason : String)
  deriving DecidableEq

def FileError.message : FileError → String
  | notFound => "No such file or directory (os error 2)"
  | notDirectory => "Not a directory (os error 20)"
  | isDirectory => "Is a directory (os error 21)"
  | nameTooLong => "File name too long (os error 36)"
  | nulInName => "file name contained an unexpected NUL byte"
  | notText => "stream did not contain valid UTF-8"
  | other reason => reason

inductive FileNode where
  | directory
  | file (contents : Bytes)

structure FileTree where
  -- every file and directory but the root, with the names that lead to it from there
  nodes : List (List String × FileNode)
  -- the directory that relative paths start from
  here : List String

namespace FileTree

-- The most bytes of one name, and of a path.
def nameLimit : Nat := 255
def pathLimit : Nat := 4095

def node? (t : FileTree) (place : List String) : Option FileNode :=
  match place with
  | [] => some .directory
  | _ => (t.nodes.find? fun n => n.1 = place).map (·.2)

def walk (t : FileTree) (place : List String) : List String → Except FileError FileNode
  | [] => (t.node? place).elim (.error .notFound) .ok
  | name :: rest =>
    match t.node? place with
    | none => .error .notFound
    | some (.file _) => .error .notDirectory
    | some .directory =>
      if name = "." then t.walk place rest
      else if name = ".." then t.walk place.dropLast rest
      else if nameLimit < name.utf8ByteSize then .error .nameTooLong
      else t.walk (place ++ [name]) rest

-- The names of a path. A path that ends in a slash asks for a directory.
def names (path : String) : List String :=
  (path.splitOn "/").filter (· ≠ "") ++ (if path.endsWith "/" then ["."] else [])

def find (t : FileTree) (path : String) : Except FileError FileNode :=
  if path.contains '\x00' then .error .nulInName
  else if path.isEmpty then .error .notFound
  else if pathLimit < path.utf8ByteSize then .error .nameTooLong
  else t.walk (if path.startsWith "/" then [] else t.here) (names path)

def text (contents : Bytes) : Except FileError String :=
  (String.fromUTF8? contents.toByteArray).elim (.error .notText) .ok

def read (t : FileTree) (path : String) : Except FileError String := do
  match ← t.find path with
  | .directory => .error .isDirectory
  | .file contents => text contents

end FileTree

end QuorumLedger
