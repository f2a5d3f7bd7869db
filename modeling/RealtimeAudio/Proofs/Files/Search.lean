import Mathlib.Data.List.Sort
import RealtimeAudio.Proofs.Files.Names

/-! What a search finds, on any file system that answers for a tree of directories, files and links.
A directory's list is settled by which of the names in it are files' and have the extension: they
come in the order of their bytes, each once. The order in which a walk meets the entries has no part
in it, and neither have the entries that do not match. -/
namespace RealtimeAudio

namespace FileTree

section Entries
variable {t : FileTree} {location : Location}

theorem lookup_eq_some_iff {entry : Entry} :
    t.entries.lookup location = some entry ↔ (location, entry) ∈ t.entries := by
  rw [List.lookup_eq_some_iff]
  constructor
  · rintro ⟨before, after, same, -⟩
    simp [same]
  · intro member
    obtain ⟨before, after, same⟩ := List.append_of_mem member
    refine ⟨before, after, same, ?_⟩
    rintro other earlier
    have distinct := t.distinct
    rw [same, List.map_append, List.nodup_append] at distinct
    simpa using (distinct.2.2 _ (List.mem_map_of_mem earlier) _ (by simp)).symm

/-- The entries of a tree may come in any order. -/
theorem entry?_of_perm {other : FileTree} (permuted : other.entries.Perm t.entries) :
    other.entry? = t.entry? := by
  funext location
  unfold entry?
  split_ifs
  · rfl
  · ext entry
    rw [lookup_eq_some_iff, lookup_eq_some_iff, permuted.mem_iff]

theorem mem_children {name : FileName} {entry : Entry}
    (found : t.entry? (location ++ [name]) = some entry) : name ∈ t.children location := by
  unfold entry? at found
  rw [if_neg (by simp), lookup_eq_some_iff] at found
  rw [children, List.mem_filterMap]
  exact ⟨_, found, by simp⟩

theorem isName_of_mem_children {name : FileName} (child : name ∈ t.children location) :
    Path.IsName name := by
  rw [children, List.mem_filterMap] at child
  obtain ⟨⟨place, entry⟩, member, last⟩ := child
  rw [Option.ite_none_right_eq_some] at last
  exact t.named place (List.mem_map_of_mem member) name (List.mem_of_getLast? last.2)

theorem children_nodup : (t.children location).Nodup := by
  have keys : t.children location = (t.entries.map Prod.fst).filterMap fun place =>
      if place.dropLast = location then place.getLast? else none := by
    rw [List.filterMap_map]
    rfl
  rw [keys]
  refine t.distinct.filterMap fun place other name is_last other_last => ?_
  simp only [Option.mem_def, Option.ite_none_right_eq_some] at is_last other_last
  rw [← List.dropLast_append_getLast? name is_last.2,
    ← List.dropLast_append_getLast? name other_last.2, is_last.1, other_last.1]

end Entries

section Same
variable {t other : FileTree} (same : other.entry? = t.entry?)
include same

theorem walk?_congr (vacant : Bool) (follow : Location → List FileName → Option Location)
    (here : Location) (names : List FileName) :
    other.walk? vacant follow here names = t.walk? vacant follow here names := by
  induction names generalizing here with
  | nil => rfl
  | cons name rest ih => simp only [walk?, same, ih]

theorem resolve?_congr (vacant : Bool) (links : Nat) :
    other.resolve? vacant links = t.resolve? vacant links := by
  induction links with
  | zero => exact funext₂ (walk?_congr same vacant _)
  | succ links ih =>
    funext here names
    rw [resolve?, resolve?, ih, walk?_congr same]

theorem locate?_congr : other.locate? = t.locate? := by
  funext here path
  rw [locate?, locate?, resolve?_congr same]

end Same

end FileTree

namespace FileSearch

section Statements
variable (t : FileTree) (here : Location) (extension : String) (directory : Path)

/-- A path stands for the directory at a location. -/
def IsDirectory (location : Location) : Prop :=
  t.locate? here directory = some location ∧ t.entry? location = some .directory

/-- A name in the directory at a location is a file's, or a link's whose path leads to a file. -/
def ResolvesToFile (location : Location) (name : FileName) : Prop :=
  t.entry? (location ++ [name]) = some .file ∨
    ∃ target place, t.entry? (location ++ [name]) = some (.link target) ∧
      t.locate? here (Path.join directory name) = some place ∧ t.entry? place = some .file

/-- What a walk may meet for a name in the directory at a location. What it cannot look at is no
file. -/
inductive Visits (location : Location) (name : FileName) : Visit → Prop
  | entry {isFile : Bool} : (isFile = true ↔ ResolvesToFile t here directory location name) →
      Visits location name (.entry (Path.join directory name) isFile)
  | unreadable : ¬ ResolvesToFile t here directory location name →
      Visits location name .unreadable

/-- A name in a directory that a search is for. -/
def Matches (name : FileName) : Prop :=
  ∃ location, IsDirectory t here directory location ∧
    ResolvesToFile t here directory location name ∧ Path.HasExtension extension name

/-- The list of a directory: nothing if there is none, and otherwise the paths of exactly the names
that match, in the order of their bytes. -/
inductive Lists : List Path → Prop
  | missing : (∀ location, ¬ IsDirectory t here directory location) → Lists []
  | files {location : Location} {names : List FileName} :
      IsDirectory t here directory location →
      names.Pairwise (· < ·) →
      (∀ name, name ∈ names ↔ Matches t here extension directory name) →
      Lists (names.map (Path.join directory))

/-- One list for each of some directories, put together in their order. -/
def ListsAll (directories paths : List Path) : Prop :=
  ∃ lists, List.Forall₂ (Lists t here extension) directories lists ∧ paths = lists.flatten

/-- An extension with dots put in front of it and its letters in any case. -/
def Respelled (respelled : String) : Prop :=
  ∃ dots, Path.SameLetters (List.replicate dots '.' ++ extension.toList) respelled.toList

end Statements

/-- A file system that answers for a tree: a walk meets each name in a directory once, in any
order, links resolved. -/
structure Presents (fs : FileSystem) (t : FileTree) (here : Location) : Prop where
  directories : ∀ path, fs.isDirectory path = true ↔ ∃ location, IsDirectory t here path location
  walks : ∀ path location, IsDirectory t here path location → ∃ names : List FileName,
    names.Perm (t.children location) ∧
      List.Forall₂ (Visits t here path location) names (fs.walk path)

/-- The directories that a search goes through. -/
def searched (s : FileSearch) (subdirectory : Path) : List Path :=
  if Path.isAbsolute subdirectory then [subdirectory]
  else s.roots.map (Path.join · subdirectory)

variable {fs : FileSystem} {t : FileTree} {here : Location} {extension : String} {directory : Path}

section Tree
variable {location : Location}

theorem visits_visit (name : FileName) :
    Visits t here directory location name (t.visit here directory location name) := by
  unfold FileTree.visit FileTree.find?
  dsimp only
  split
  · rename_i target link
    split
    · rename_i entry found
      rw [Option.bind_eq_some_iff] at found
      obtain ⟨place, located, found⟩ := found
      refine .entry ?_
      simp [ResolvesToFile, link, located, found]
    · rename_i lost
      rw [Option.bind_eq_none_iff] at lost
      refine .unreadable ?_
      rintro (file | ⟨target', place, -, located, found⟩)
      · exact nomatch link.symm.trans file
      · exact nomatch (lost place located).symm.trans found
  · rename_i no_link
    refine .entry ?_
    rw [decide_eq_true_iff]
    refine ⟨.inl, ?_⟩
    rintro (file | ⟨target, place, link, -⟩)
    · exact file
    · exact absurd link (no_link target)

/-- What is assumed of a file system holds of the one that a tree makes. -/
theorem presents_fileSystem (t : FileTree) (here : Location) :
    Presents (t.fileSystem here) t here where
  directories path := by
    simp [FileTree.fileSystem, FileTree.find?, IsDirectory, Option.bind_eq_some_iff]
  walks path location found := by
    refine ⟨t.children location, .rfl, ?_⟩
    have walked : (t.fileSystem here).walk path =
        (t.children location).map (t.visit here path location) := by
      simp only [FileTree.fileSystem, found.1]
    rw [walked, List.forall₂_map_right_iff]
    exact List.forall₂_same.mpr fun name _ => visits_visit name

theorem IsDirectory.matches_iff (found : IsDirectory t here directory location)
    {name : FileName} : Matches t here extension directory name ↔
      ResolvesToFile t here directory location name ∧ Path.HasExtension extension name := by
  constructor
  · rintro ⟨place, found', matching⟩
    obtain rfl : location = place := by simpa [found.1] using found'.1
    exact matching
  · exact fun matching => ⟨location, found, matching⟩

theorem ResolvesToFile.mem_children {name : FileName}
    (file : ResolvesToFile t here directory location name) : name ∈ t.children location := by
  rcases file with file | ⟨target, place, link, -⟩
  · exact FileTree.mem_children file
  · exact FileTree.mem_children link

end Tree

section Results

/-- What a search keeps of a visit. -/
def kept? (bare : String) : Visit → Option Path
  | .unreadable => none
  | .entry path isFile => if isFile && accepts bare path then some path else none

theorem foldl_collect (bare : String) (visits : List Visit) (results : List Path) :
    visits.foldl (collect bare) results = results ++ visits.filterMap (kept? bare) := by
  induction visits generalizing results with
  | nil => exact (List.append_nil results).symm
  | cons visit visits ih =>
    rw [List.foldl_cons, ih, List.filterMap_cons]
    cases visit with
    | unreadable => rfl
    | entry path isFile =>
      rw [collect, kept?]
      split_ifs
      · exact List.append_assoc results [path] _
      · rfl

/-- Results that are there stay in front, untouched by the sort. -/
theorem searchDirectory_eq_append (results : List Path) (directory : Path) :
    searchDirectory fs extension results directory =
      results ++ searchDirectory fs extension [] directory := by
  unfold searchDirectory
  split_ifs
  · simp only [foldl_collect, List.take_left, List.drop_left, List.nil_append, List.length_nil,
      List.take_zero, List.drop_zero]
  · exact (List.append_nil results).symm

theorem foldl_searchDirectory (results : List Path) (directories : List Path) :
    directories.foldl (searchDirectory fs extension) results =
      results ++ directories.flatMap (searchDirectory fs extension []) := by
  induction directories generalizing results with
  | nil => exact (List.append_nil results).symm
  | cons directory directories ih =>
    rw [List.foldl_cons, ih, searchDirectory_eq_append, List.flatMap_cons, List.append_assoc]

variable (s : FileSearch)

theorem findIn_eq (subdirectory : Path) : s.findIn fs extension subdirectory =
    (s.searched subdirectory).flatMap (searchDirectory fs extension []) := by
  unfold findIn searched
  split_ifs
  · rw [List.flatMap_singleton]
  · rw [← List.nil_append (List.flatMap _ _), ← foldl_searchDirectory, List.foldl_map]

theorem find_eq : s.find fs extension =
    s.localDirectory.toList.flatMap (searchDirectory fs extension []) := by
  unfold find
  split
  · rename_i directory given
    rw [given, Option.toList_some, List.flatMap_singleton]
  · rename_i given
    rw [given]
    rfl

end Results

section Listing
variable {location : Location}

/-- The paths kept of a walk are those of the names that match, in the order of the walk. -/
theorem exists_filterMap_kept? {names : List FileName} {visits : List Visit}
    (walk : List.Forall₂ (Visits t here directory location) names visits)
    (named : ∀ name ∈ names, Path.IsName name) :
    ∃ kept : List FileName, kept.Sublist names ∧
      visits.filterMap (kept? (Path.bareExtension extension)) = kept.map (Path.join directory) ∧
      ∀ name, name ∈ kept ↔ name ∈ names ∧
        ResolvesToFile t here directory location name ∧ Path.HasExtension extension name := by
  induction walk with
  | nil => exact ⟨[], .slnil, rfl, by simp⟩
  | @cons name visit names visits met walk ih =>
    rw [List.forall_mem_cons] at named
    obtain ⟨kept, sublist, paths, members⟩ := ih named.2
    by_cases matching :
        ResolvesToFile t here directory location name ∧ Path.HasExtension extension name
    · refine ⟨name :: kept, sublist.cons_cons name, ?_, fun other => ?_⟩
      · have taken : kept? (Path.bareExtension extension) visit =
            some (Path.join directory name) := by
          cases met with
          | entry file =>
            exact if_pos (Bool.and_eq_true_iff.mpr
              ⟨file.mpr matching.1, (Path.accepts_join_iff named.1).mpr matching.2⟩)
          | unreadable no_file => exact absurd matching.1 no_file
        rw [List.filterMap_cons_some taken, paths, List.map_cons]
      · rw [List.mem_cons, List.mem_cons, members]
        refine ⟨?_, fun member => member.1.imp id (⟨·, member.2⟩)⟩
        rintro (rfl | member)
        · exact ⟨.inl rfl, matching⟩
        · exact ⟨.inr member.1, member.2⟩
    · refine ⟨kept, sublist.cons name, ?_, fun other => ?_⟩
      · have skipped : kept? (Path.bareExtension extension) visit = none := by
          cases met with
          | entry file =>
            refine if_neg fun both => matching ?_
            rw [Bool.and_eq_true_iff] at both
            exact ⟨file.mp both.1, (Path.accepts_join_iff named.1).mp both.2⟩
          | unreadable no_file => rfl
        rw [List.filterMap_cons_none skipped, paths]
      · rw [members, List.mem_cons]
        refine ⟨fun member => ⟨.inr member.1, member.2⟩, ?_⟩
        rintro ⟨rfl | member, file⟩
        · exact absurd file matching
        · exact ⟨member, file⟩

/-- Names that are each there once stand in strict order when sorted. -/
theorem pairwise_mergeSort {names : List FileName} (distinct : names.Nodup) :
    (names.mergeSort (· ≤ ·)).Pairwise (· < ·) := by
  have sorted : (names.mergeSort (· ≤ ·)).Pairwise (· ≤ ·) := List.pairwise_mergeSort' _ _
  have distinct : (names.mergeSort (· ≤ ·)).Pairwise (· ≠ ·) :=
    (List.mergeSort_perm _ _).nodup_iff.mpr distinct
  exact (sorted.and distinct).imp fun both => Std.lt_of_le_of_ne both.1 both.2

theorem lists_searchDirectory (presents : Presents fs t here) (directory : Path) :
    Lists t here extension directory (searchDirectory fs extension [] directory) := by
  unfold searchDirectory
  split_ifs with kind
  · obtain ⟨location, found⟩ := (presents.directories directory).mp kind
    obtain ⟨names, each, walk⟩ := presents.walks directory location found
    have named : ∀ name ∈ names, Path.IsName name := fun name member =>
      FileTree.isName_of_mem_children (each.mem_iff.mp member)
    obtain ⟨kept, sublist, paths, members⟩ := exists_filterMap_kept? walk named
    have distinct : kept.Nodup := (each.nodup_iff.mpr FileTree.children_nodup).sublist sublist
    have sorted : (kept.map (Path.join directory)).mergeSort Path.atMost =
        (kept.mergeSort (· ≤ ·)).map (Path.join directory) :=
      (List.map_mergeSort fun name member other member' => (Path.atMost_join
        (named name (sublist.subset member)) (named other (sublist.subset member'))).symm).symm
    dsimp only
    rw [foldl_collect, List.nil_append, List.length_nil, List.take_zero, List.drop_zero,
      List.nil_append, paths, sorted]
    refine .files found (pairwise_mergeSort distinct) fun name => ?_
    rw [List.mem_mergeSort, members, found.matches_iff, each.mem_iff]
    exact ⟨And.right, fun matching => ⟨matching.1.mem_children, matching⟩⟩
  · exact .missing fun location found =>
      kind ((presents.directories directory).mpr ⟨location, found⟩)

/-- The names that match settle the list. -/
theorem Lists.unique {other : FileTree} {paths paths' : List Path}
    (lists : Lists t here extension directory paths)
    (lists' : Lists other here extension directory paths')
    (same : ∀ name, Matches other here extension directory name ↔
      Matches t here extension directory name) : paths = paths' := by
  have none {t : FileTree} (missing : ∀ location, ¬ IsDirectory t here directory location)
      (name : FileName) : ¬ Matches t here extension directory name := by
    rintro ⟨location, found, -⟩
    exact missing location found
  cases lists with
  | missing missing =>
    cases lists' with
    | missing => rfl
    | @files _ names _ _ members =>
      have empty : names = [] := List.eq_nil_iff_forall_not_mem.mpr fun name member =>
        none missing name ((same name).mp ((members name).mp member))
      rw [empty, List.map_nil]
  | @files _ names _ sorted members =>
    cases lists' with
    | missing missing =>
      have empty : names = [] := List.eq_nil_iff_forall_not_mem.mpr fun name member =>
        none missing name ((same name).mpr ((members name).mp member))
      rw [empty, List.map_nil]
    | @files _ names' _ sorted' members' =>
      have : Std.Antisymm fun name other : FileName => name < other :=
        ⟨fun _ _ less more => absurd more (Std.not_gt_of_lt less)⟩
      rw [sorted.eq_of_mem_iff sorted' fun name =>
        (members name).trans ((same name).symm.trans (members' name).symm)]

end Listing

section Spelling

theorem toLower_eq_dot {c : Char} : c.toLower = '.' ↔ c = '.' := by
  unfold Char.toLower
  split_ifs with capital
  · constructor
    · intro dot
      have value : c.val + 32 = 46 := congrArg Char.val dot
      have above : 65 ≤ c.val := capital.1
      have below : c.val ≤ 90 := capital.2
      simp only [UInt32.le_iff_toNat_le, ← UInt32.toNat_inj, UInt32.toNat_add] at value above below
      simp at value above below
      omega
    · rintro rfl
      exact absurd capital (by decide)
  · rfl

theorem map_toLower_bareExtension (text : String) :
    (Path.bareExtension text).toList.map Char.toLower =
      (text.toList.map Char.toLower).dropWhile (· = '.') := by
  have dots : (fun c => decide (c = '.')) ∘ Char.toLower = fun c => decide (c = '.') :=
    funext fun c => decide_eq_decide.mpr toLower_eq_dot
  rw [Path.bareExtension, String.toList_ofList, List.dropWhile_map, dots]

theorem accepts_respelled {respelled : String} (spelling : Respelled extension respelled) :
    accepts (Path.bareExtension respelled) = accepts (Path.bareExtension extension) := by
  obtain ⟨dots, letters⟩ := spelling
  have plain : ∀ c ∈ (List.replicate dots '.').map Char.toLower, (decide (c = '.')) = true := by
    rw [List.map_replicate]
    exact fun c member => decide_eq_true (List.eq_of_mem_replicate member)
  have same : (Path.bareExtension respelled).toList.map Char.toLower =
      (Path.bareExtension extension).toList.map Char.toLower := by
    rw [map_toLower_bareExtension, map_toLower_bareExtension, ← letters, List.map_append,
      List.dropWhile_append_of_pos plain]
  funext path
  simp only [accepts, Path.equalIgnoringCase, same]

theorem searchDirectory_respelled {respelled : String} (spelling : Respelled extension respelled) :
    searchDirectory fs respelled = searchDirectory fs extension := by
  have same : collect (Path.bareExtension respelled) = collect (Path.bareExtension extension) := by
    funext results visit
    cases visit with
    | unreadable => rfl
    | entry path isFile => simp only [collect, accepts_respelled spelling]
  funext results directory
  simp only [searchDirectory, same]

end Spelling

section Directories

theorem listsAll_flatMap (presents : Presents fs t here) (directories : List Path) :
    ListsAll t here extension directories
      (directories.flatMap (searchDirectory fs extension [])) := by
  refine ⟨directories.map (searchDirectory fs extension []), ?_, List.flatMap_def⟩
  exact List.forall₂_map_right_iff.mpr
    (List.forall₂_same.mpr fun directory _ => lists_searchDirectory presents directory)

theorem flatMap_congr {other : FileTree} {fs' : FileSystem} {directories : List Path}
    (presents : Presents fs t here) (presents' : Presents fs' other here)
    (same : ∀ directory ∈ directories, ∀ name, Matches other here extension directory name ↔
      Matches t here extension directory name) :
    directories.flatMap (searchDirectory fs' extension []) =
      directories.flatMap (searchDirectory fs extension []) :=
  List.flatMap_congr fun directory member =>
    ((lists_searchDirectory presents directory).unique
      (lists_searchDirectory presents' directory) (same directory member)).symm

theorem matches_of_perm {other : FileTree} (permuted : other.entries.Perm t.entries)
    (name : FileName) : Matches other here extension directory name ↔
      Matches t here extension directory name := by
  have entries := FileTree.entry?_of_perm permuted
  simp only [Matches, IsDirectory, ResolvesToFile, entries, FileTree.locate?_congr entries]

/-- What a search for an extension finds. -/
structure Finds (s : FileSearch) (fs : FileSystem) (t : FileTree) (here : Location)
    (extension : String) (subdirectory : Path) : Prop where
  /-- A subdirectory is searched below every root, one root after the other. -/
  relative : Path.isAbsolute subdirectory = false →
    ListsAll t here extension (s.roots.map (Path.join · subdirectory))
      (s.findIn fs extension subdirectory)
  absolute : Path.isAbsolute subdirectory = true → ∀ roots,
    Lists t here extension subdirectory ({ s with roots }.findIn fs extension subdirectory)
  nowhere : s.localDirectory = none → s.find fs extension = []
  inside : ∀ directory, s.localDirectory = some directory →
    Lists t here extension directory (s.find fs extension)
  respelled : ∀ respelled, Respelled extension respelled →
    s.findIn fs respelled subdirectory = s.findIn fs extension subdirectory ∧
      s.find fs respelled = s.find fs extension
  /-- A file system of another tree in which the same names match gives the same. -/
  findIn_congr : ∀ fs' other, Presents fs' other here →
    (∀ directory ∈ s.searched subdirectory, ∀ name,
      Matches other here extension directory name ↔ Matches t here extension directory name) →
    s.findIn fs' extension subdirectory = s.findIn fs extension subdirectory
  find_congr : ∀ fs' other, Presents fs' other here →
    (∀ directory ∈ s.localDirectory, ∀ name,
      Matches other here extension directory name ↔ Matches t here extension directory name) →
    s.find fs' extension = s.find fs extension
  /-- Neither the order of a tree's entries nor that of a walk makes a difference. -/
  order : ∀ fs' other, Presents fs' other here → other.entries.Perm t.entries →
    s.findIn fs' extension subdirectory = s.findIn fs extension subdirectory ∧
      s.find fs' extension = s.find fs extension

/-- On any file system that answers for a tree, a search finds the files that match. -/
theorem finds_matches (s : FileSearch) {fs : FileSystem} {t : FileTree} {here : Location}
    (presents : Presents fs t here) (extension : String) (subdirectory : Path) :
    Finds s fs t here extension subdirectory where
  relative relative := by
    simpa [findIn_eq, searched, relative] using
      listsAll_flatMap presents (s.roots.map (Path.join · subdirectory))
  absolute absolute roots := by
    simpa [findIn, absolute] using lists_searchDirectory presents subdirectory
  nowhere none := by simp [find_eq, none]
  inside directory given := by
    simpa [find_eq, given] using lists_searchDirectory presents directory
  respelled respelled spelling := by
    simp only [findIn_eq, find_eq, searchDirectory_respelled spelling, and_self]
  findIn_congr fs' other presents' same := by
    rw [findIn_eq, findIn_eq, flatMap_congr presents presents' same]
  find_congr fs' other presents' same := by
    rw [find_eq, find_eq, flatMap_congr presents presents' (by simpa using same)]
  order fs' other presents' permuted := by
    simp only [findIn_eq, find_eq,
      flatMap_congr presents presents' fun _ _ => matches_of_perm permuted, and_self]

theorem finds_matches_links :
    let file (t : FileTree) (path : Path) : FileTree := t.make path .file
    let link (t : FileTree) (path target : Path) : FileTree := t.make path (.link target)
    let t := file (file .empty (Path.ofString "/data/b.JSON")) (Path.ofString "/data/c." ++ [0xff])
    let t := link t (Path.ofString "/data/a.json") (Path.ofString "b.JSON")
    let t := link t (Path.ofString "/data/lost.json") (Path.ofString "gone")
    Presents (t.fileSystem []) t [] ∧
      Finds (.ofRoots [] [Path.ofString "/data", Path.ofString "/"]) (t.fileSystem []) t [] ".json"
        (Path.ofString "data") := by
  intro file link t t t
  exact ⟨presents_fileSystem t [], finds_matches _ (presents_fileSystem t []) ".json" _⟩

end Directories

end FileSearch

end RealtimeAudio
