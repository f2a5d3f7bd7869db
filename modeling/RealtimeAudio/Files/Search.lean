import RealtimeAudio.Files.Tree

/-! Finding data files by extension. `find` looks in one local directory; `findIn` looks
in a subdirectory of every data root, one root after the other. Within one directory
the files come in the order of their names. -/
namespace RealtimeAudio

/-- What a walk through a directory meets. -/
inductive Visit where
  /-- An entry, links resolved. -/
  | entry (path : Path) (isFile : Bool)
  /-- An entry that cannot be looked at, such as a link that leads nowhere. -/
  | unreadable
deriving DecidableEq, Repr

/-- What a search asks of the system it runs on. -/
structure FileSystem where
  isDirectory : Path → Bool
  /-- The entries directly in a directory, one after the other. -/
  walk : Path → List Visit

namespace FileTree

def visit (t : FileTree) (here : Location) (directory : Path) (location : Location)
    (name : FileName) : Visit :=
  let path := Path.join directory name
  match t.entry? (location ++ [name]) with
  | some (.link _) =>
    match t.find? here path with
    | some entry => .entry path (entry = .file)
    | none => .unreadable
  | entry => .entry path (entry = some .file)

/-- The file system that a tree makes, seen from `here`. -/
def fileSystem (t : FileTree) (here : Location) : FileSystem where
  isDirectory path := t.find? here path = some .directory
  walk path :=
    match t.locate? here path with
    | some location => (t.children location).map (t.visit here path location)
    | none => []

end FileTree

structure FileSearch where
  localDirectory : Option Path
  roots : List Path
deriving DecidableEq, Repr

/-- What a search learns from its surroundings; a variable that is not set is `none`. -/
structure Environment where
  home : Option Path
  /-- The home directory that the account has, for when `home` is not set. -/
  accountHome : Option Path
  /-- Where the user's data files are, if not below `home`. -/
  dataHome : Option Path
  dataDirectories : Option Path
  /-- The directory to search instead of the current one. -/
  localPath : Option Path
  currentDirectory : Option Path

namespace Environment

def nonempty (value : Option Path) : Option Path := value.filter (· ≠ [])

def standardDirectories : Path := Path.ofString "/usr/local/share/:/usr/share/"

/-- The user's data directory. A relative one is ignored, unless it comes by way of
`home`. -/
def userData (e : Environment) : Option Path :=
  match e.dataHome.filter Path.isAbsolute with
  | some path => some path
  | none => ((nonempty e.home).or e.accountHome).map (Path.join · (Path.ofString ".local/share"))

end Environment

namespace FileSearch

def nowhere : FileSearch := ⟨none, []⟩

def ofRoots (localDirectory : Path) (roots : List Path) : FileSearch :=
  ⟨some localDirectory, roots⟩

def ofEnvironment (e : Environment) : FileSearch where
  localDirectory := (Environment.nonempty e.localPath).or e.currentDirectory
  roots := e.userData.toList ++
    (Path.split ':'.toUInt8 ((Environment.nonempty e.dataDirectories).getD
      Environment.standardDirectories)).filter (· ≠ [])

/-- Whether a path has an extension that is text and, but for case, the one asked for. -/
def accepts (bare : String) (path : Path) : Bool :=
  match (Path.extension? path).bind Path.text? with
  | some found => Path.equalIgnoringCase found bare
  | none => false

def collect (bare : String) (results : List Path) : Visit → List Path
  | .unreadable => results
  | .entry path isFile =>
    if isFile && accepts bare path then results ++ [path] else results

/-- Put the files of one directory behind the results there are, which stay as they
are; nothing is put there if it is no directory. -/
def searchDirectory (fs : FileSystem) (extension : String) (results : List Path)
    (directory : Path) : List Path :=
  if fs.isDirectory directory then
    let base := results.length
    let results := (fs.walk directory).foldl (collect (Path.bareExtension extension)) results
    results.take base ++ (results.drop base).mergeSort Path.atMost
  else results

def find (s : FileSearch) (fs : FileSystem) (extension : String) : List Path :=
  match s.localDirectory with
  | some directory => searchDirectory fs extension [] directory
  | none => []

/-- Files below every root. An absolute subdirectory is searched on its own. -/
def findIn (s : FileSearch) (fs : FileSystem) (extension : String) (subdirectory : Path) :
    List Path :=
  if Path.isAbsolute subdirectory then searchDirectory fs extension [] subdirectory
  else s.roots.foldl
    (fun results root => searchDirectory fs extension results (Path.join root subdirectory)) []

end FileSearch

end RealtimeAudio
