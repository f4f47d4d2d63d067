/-!
# Paths

* `Path.ofText`   a path without its empty parts and its dots; two dots are kept;
* `Path.text`     the path as messages show it;
* `FileTree`      a directory with what is below it, and what a path finds there.
-/

namespace AnnotatedScheme

structure Path where
  /-- the slashes in front: none, one, or exactly two -/
  root : String
  parts : List String
  deriving DecidableEq

namespace Path

def rootOf (text : String) : String :=
  match (text.toList.takeWhile (· = '/')).length with
  | 0 => ""
  | 2 => "//"
  | _ => "/"

def ofText (text : String) : Path :=
  ⟨rootOf text, (text.splitOn "/").filter fun part => part ≠ "" ∧ part ≠ "."⟩

def text (path : Path) : String :=
  if path = ⟨"", []⟩ then "." else path.root ++ "/".intercalate path.parts

end Path

/-- what is found at a path -/
inductive Entry
  | missing
  | directory
  | file (bytes : List UInt8)
  deriving DecidableEq

/-- the entries below a directory, each with the parts of its path -/
structure FileTree where
  entries : List (List String × Entry)

namespace FileTree

/-- what is found at the end of parts without dots; a directory may be known by what is in it -/
def entryAt (tree : FileTree) (parts : List String) : Entry :=
  if parts = [] then .directory
  else
    match tree.entries.lookup parts with
    | some entry => entry
    | none =>
      if tree.entries.any fun (below, _) => parts.isPrefixOf below then .directory else .missing

/-- follows parts from a directory below the top, whose own parts are given last one first -/
def follow (tree : FileTree) (place : List String) : List String → Entry
  | [] => tree.entryAt place.reverse
  | part :: rest =>
    if tree.entryAt place.reverse ≠ .directory then .missing
    else if part ≠ ".." then tree.follow (part :: place) rest
    else
      match place with
      | _ :: outer => tree.follow outer rest
      | [] => if rest.all (· = "..") then .directory else .missing

def find (tree : FileTree) (path : Path) : Entry :=
  if path.root = "" then tree.follow [] path.parts
  else if path.parts.all (· = "..") then .directory
  else .missing

end FileTree

end AnnotatedScheme
