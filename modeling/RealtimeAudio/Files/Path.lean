/-! Paths as bytes, which need not be text. A path is not normalised: doubled slashes,
`.` and `..` stay as they were written, and only looking a path up gives them a
meaning. -/
namespace RealtimeAudio

abbrev FileName := List UInt8

abbrev Path := List UInt8

namespace Path

def ofString (text : String) : Path := text.toUTF8.data.toList

/-- The text that bytes stand for, if they are UTF-8. -/
def text? (bytes : List UInt8) : Option String := String.fromUTF8? ⟨bytes.toArray⟩

def slash : UInt8 := '/'.toUInt8

def dot : UInt8 := '.'.toUInt8

/-- The pieces between marks; a path without the mark is one piece. -/
def split (mark : UInt8) : Path → List Path
  | [] => [[]]
  | c :: rest =>
    if c = mark then [] :: split mark rest
    else
      match split mark rest with
      | [] => [[c]]
      | piece :: pieces => (c :: piece) :: pieces

def names (path : Path) : List FileName := split slash path

def isAbsolute (path : Path) : Bool := path.head? == some slash

/-- `path` below `base`: an absolute path stands for itself, and a slash is put between
only where there is none. -/
def join (base path : Path) : Path :=
  if isAbsolute path then path
  else if base = [] ∨ base.getLast? = some slash then base ++ path
  else base ++ slash :: path

/-- What an entry of a directory can be called. -/
def IsName (name : FileName) : Prop :=
  name ≠ [] ∧ name ≠ [dot] ∧ name ≠ [dot, dot] ∧ slash ∉ name ∧ 0 ∉ name

instance (name : FileName) : Decidable (IsName name) := by
  unfold IsName
  infer_instance

inductive Component where
  | root
  | current
  | parent
  | normal (name : FileName)
deriving DecidableEq, Repr

/-- What components are compared by: their kind, then the bytes of a name. -/
def Component.key : Component → List UInt8
  | root => [0]
  | current => [1]
  | parent => [2]
  | normal name => 3 :: name

def component? (piece : FileName) : Option Component :=
  if piece = [] ∨ piece = [dot] then none
  else if piece = [dot, dot] then some .parent
  else some (.normal piece)

/-- The components of a path. A dot counts only in front of a relative one. -/
def components (path : Path) : List Component :=
  let front : List Component :=
    if isAbsolute path then [.root]
    else if (names path).head? = some [dot] then [.current]
    else []
  front ++ (names path).filterMap component?

/-- Paths are in order by their components. -/
def atMost (a b : Path) : Bool :=
  (components a).map Component.key ≤ (components b).map Component.key

def fileName? (path : Path) : Option FileName :=
  match (components path).getLast? with
  | some (.normal name) => some name
  | _ => none

/-- What follows the last dot of a file name. A name whose only dot is its first
character has no extension. -/
def extensionOf? (name : FileName) : Option (List UInt8) :=
  match name.reverse.dropWhile (· ≠ dot) with
  | [] => none
  | [_] => none
  | _ => some (name.reverse.takeWhile (· ≠ dot)).reverse

def extension? (path : Path) : Option (List UInt8) := (fileName? path).bind extensionOf?

/-- The same text but for the case of ASCII letters. -/
def equalIgnoringCase (a b : String) : Bool :=
  a.toList.map Char.toLower == b.toList.map Char.toLower

def bareExtension (extension : String) : String :=
  String.ofList (extension.toList.dropWhile (· = '.'))

end Path

end RealtimeAudio
