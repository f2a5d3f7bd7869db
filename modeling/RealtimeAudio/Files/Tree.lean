import RealtimeAudio.Files.Path

/-! A tree of directories, files and symbolic links. Everything has one location, the
names from the top down; a path is looked up from a starting location, and following
links on the way leads to the location it stands for. Permissions and file contents are
not modelled. -/
namespace RealtimeAudio

inductive Entry where
  | directory
  | file
  | link (target : Path)
deriving DecidableEq, Repr

/-- Names from the top down; the top itself is a directory that always exists. -/
abbrev Location := List FileName

structure FileTree where
  entries : List (Location × Entry)
  distinct : (entries.map Prod.fst).Nodup := by simp
  named : ∀ location ∈ entries.map Prod.fst, ∀ name ∈ location, Path.IsName name := by simp

namespace FileTree

def empty : FileTree := { entries := [] }

def insert (t : FileTree) (location : Location) (entry : Entry) : FileTree :=
  if h : location ∉ t.entries.map Prod.fst ∧ ∀ name ∈ location, Path.IsName name then
    { entries := (location, entry) :: t.entries
      distinct := List.nodup_cons.mpr ⟨h.1, t.distinct⟩
      named := List.forall_mem_cons.mpr ⟨h.2, t.named⟩ }
  else t

def entry? (t : FileTree) (location : Location) : Option Entry :=
  if location = [] then some .directory else t.entries.lookup location

/-- Go along names from a directory. `follow` goes along the names of a link's target,
and what remains after it, from where the target starts. With `vacant`, a last name that
is missing stands for the place it would have. -/
def walk? (t : FileTree) (vacant : Bool)
    (follow : Location → List FileName → Option Location) :
    Location → List FileName → Option Location
  | here, [] => some here
  | here, name :: rest =>
    if name = [] ∨ name = [Path.dot] then t.walk? vacant follow here rest
    else if name = [Path.dot, Path.dot] then t.walk? vacant follow here.dropLast rest
    else
      match t.entry? (here ++ [name]) with
      | none => if vacant ∧ rest = [] then some (here ++ [name]) else none
      | some .directory => t.walk? vacant follow (here ++ [name]) rest
      | some .file => if rest = [] then some (here ++ [name]) else none
      | some (.link target) =>
        follow (if Path.isAbsolute target then [] else here) (Path.names target ++ rest)

def resolve? (t : FileTree) (vacant : Bool) :
    (links : Nat) → Location → List FileName → Option Location
  | 0 => t.walk? vacant fun _ _ => none
  | links + 1 => t.walk? vacant (t.resolve? vacant links)

def linkLimit : Nat := 40

def pathLimit : Nat := 4095

/-- The location a path stands for, seen from `here`. An empty path and one that is too
long stand for nothing. -/
def locate? (t : FileTree) (here : Location) (path : Path) : Option Location :=
  if path = [] ∨ pathLimit < path.length then none
  else t.resolve? false linkLimit (if Path.isAbsolute path then [] else here) (Path.names path)

/-- What a path stands for, links resolved. -/
def find? (t : FileTree) (here : Location) (path : Path) : Option Entry :=
  (t.locate? here path).bind t.entry?

def children (t : FileTree) (location : Location) : List FileName :=
  t.entries.filterMap fun (place, _) =>
    if place.dropLast = location then place.getLast? else none

def pathOf (location : Location) : Path := Path.slash :: List.intercalate [Path.slash] location

/-- Go along names from a directory and make the directories that are missing. -/
def makeDirectories (t : FileTree) : Location → List FileName → FileTree × Location
  | here, [] => (t, here)
  | here, name :: rest =>
    match t.resolve? false linkLimit here [name] with
    | some next => t.makeDirectories next rest
    | none => (t.insert (here ++ [name]) .directory).makeDirectories (here ++ [name]) rest

/-- Put an entry at an absolute path, with its parents. A file goes where the links on
its path lead, so that making one through a link whose target is missing makes the
target; a directory or link takes the name itself. -/
def make (t : FileTree) (path : Path) (entry : Entry) : FileTree :=
  let names := (Path.names path).filter (· ≠ [])
  let (t, parent) := t.makeDirectories [] names.dropLast
  match names.getLast? with
  | none => t
  | some name =>
    match entry with
    | .directory => (t.makeDirectories parent [name]).1
    | .file =>
      match t.resolve? true linkLimit parent [name] with
      | some location => t.insert location .file
      | none => t
    | .link _ => t.insert (parent ++ [name]) entry

end FileTree

end RealtimeAudio
