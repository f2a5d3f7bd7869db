import Mathlib.Data.List.Induction
import Mathlib.Data.List.Lex
import Mathlib.Data.List.TakeWhile
import Mathlib.Data.UInt
import RealtimeAudio.Files.Search

/-! File names: how a name stands at the end of a path, that paths in one directory are in order as
the bytes of their names are, and which names a search for an extension accepts. -/
namespace RealtimeAudio

namespace Path

section Pieces
variable {mark : UInt8} {directory : Path} {name : FileName}

theorem split_ne_nil (path : Path) : split mark path ≠ [] := by
  cases path with
  | nil => exact List.cons_ne_nil _ _
  | cons c rest =>
    rw [split]
    split
    · exact List.cons_ne_nil _ _
    · split <;> exact List.cons_ne_nil _ _

theorem split_of_notMem {piece : Path} (plain : mark ∉ piece) : split mark piece = [piece] := by
  induction piece with
  | nil => rfl
  | cons c rest ih =>
    rw [List.mem_cons, not_or] at plain
    rw [split, if_neg (Ne.symm plain.1), ih plain.2]

theorem split_append_cons (front rest : Path) :
    split mark (front ++ mark :: rest) = split mark front ++ split mark rest := by
  induction front with
  | nil => simp [split]
  | cons c front ih =>
    rw [List.cons_append, split, split, ih]
    split_ifs
    · rfl
    · cases pieces : split mark front with
      | nil => exact absurd pieces (split_ne_nil front)
      | cons piece pieces => rfl

theorem component?_name (named : IsName name) : component? name = some (.normal name) := by
  rw [component?, if_neg (not_or.mpr ⟨named.1, named.2.1⟩), if_neg named.2.2.1]

theorem names_name (named : IsName name) : names name = [name] :=
  split_of_notMem named.2.2.2.1

theorem isAbsolute_name (named : IsName name) : isAbsolute name = false := by
  cases name with
  | nil => rfl
  | cons c rest =>
    have first : c ≠ slash := fun same => named.2.2.2.1 (same ▸ List.mem_cons_self)
    simpa [isAbsolute] using first

/-- The pieces in front of a name are those of the directory, except that a slash at its end has an
empty piece behind it. -/
theorem names_join (directory : Path) (named : IsName name) : ∃ pieces,
    names (join directory name) = pieces ++ [name] ∧
      pieces.filterMap component? = (names directory).filterMap component? ∧
      (directory ≠ [] → pieces.head? = (names directory).head?) ∧
      (directory = [] → pieces = []) := by
  unfold join
  rw [isAbsolute_name named, if_neg Bool.false_ne_true]
  by_cases none : directory = []
  · subst none
    exact ⟨[], by simpa using names_name named, by simp [names, split, component?], by simp,
      by simp⟩
  by_cases last : directory.getLast? = some slash
  · obtain ⟨front, rfl⟩ := List.getLast?_eq_some_iff.mp last
    have before : names (front ++ [slash]) = names front ++ [[]] := split_append_cons front []
    have whole : names (front ++ [slash] ++ name) = names front ++ [name] := by
      rw [List.append_assoc, List.singleton_append, ← names_name named]
      exact split_append_cons front name
    refine ⟨names front, ?_, ?_, fun _ => ?_, fun empty => absurd empty none⟩
    · rw [if_pos (.inr last), whole]
    · rw [before, List.filterMap_append]
      simp [component?]
    · rw [before, List.head?_append_of_ne_nil (names front) (split_ne_nil front)]
  · refine ⟨names directory, ?_, rfl, fun _ => rfl, fun empty => absurd empty none⟩
    rw [if_neg (by simp [none, last])]
    exact (split_append_cons directory name).trans (congrArg _ (names_name named))

theorem isAbsolute_join (named : IsName name) (some : directory ≠ []) :
    isAbsolute (join directory name) = isAbsolute directory := by
  unfold join
  rw [isAbsolute_name named, if_neg Bool.false_ne_true]
  unfold isAbsolute
  split_ifs <;> rw [List.head?_append_of_ne_nil _ some]

theorem components_join (named : IsName name) :
    components (join directory name) = components directory ++ [.normal name] := by
  obtain ⟨pieces, whole, same, first, none⟩ := names_join directory named
  have rest : (names (join directory name)).filterMap component? =
      (names directory).filterMap component? ++ [.normal name] := by
    rw [whole, List.filterMap_append, same, List.filterMap_cons, component?_name named]
    rfl
  unfold components
  dsimp only
  rw [rest, ← List.append_assoc]
  by_cases empty : directory = []
  · subst empty
    rw [none rfl, List.nil_append] at whole
    have alone : join [] name = name := by simp [join]
    rw [whole, alone, isAbsolute_name named]
    simp [isAbsolute, names, split, named.2.1]
  · have some : pieces ≠ [] := by
      rintro rfl
      exact split_ne_nil directory (List.head?_eq_none_iff.mp (first empty).symm)
    rw [isAbsolute_join named empty, whole, List.head?_append_of_ne_nil _ some, first empty]

theorem extension?_join (named : IsName name) :
    extension? (join directory name) = extensionOf? name := by
  rw [extension?, fileName?, components_join named, List.getLast?_concat]
  rfl

theorem append_lt_append_iff {front xs ys : List (List UInt8)} :
    front ++ xs < front ++ ys ↔ xs < ys := by
  induction front with
  | nil => rfl
  | cons c front ih => simp [ih]

/-- Paths in one directory are in order as the bytes of their names are. -/
theorem atMost_join {other : FileName} (named : IsName name) (named' : IsName other) :
    atMost (join directory name) (join directory other) = decide (name ≤ other) := by
  rw [atMost, decide_eq_decide, components_join named, components_join named', List.map_append,
    List.map_append, ← List.not_lt, append_lt_append_iff, ← List.not_lt]
  simp [Component.key, List.cons_lt_cons_iff]

end Pieces

section Extension

/-- Two texts that differ at most in the case of ASCII letters. -/
def SameLetters (cs ds : List Char) : Prop := cs.map Char.toLower = ds.map Char.toLower

/-- What remains of an extension without the dots in front of it. -/
def Bare (extension bare : List Char) : Prop :=
  ∃ dots, extension = List.replicate dots '.' ++ bare ∧ bare.head? ≠ some '.'

/-- A name with a dot after something that is not empty, and behind its last dot the bytes of an
extension as asked for. -/
def HasExtension (extension : String) (name : FileName) : Prop :=
  ∃ stem found bare, stem ≠ [] ∧ name = stem ++ dot :: ofString found ∧ dot ∉ ofString found ∧
    Bare extension.toList bare ∧ SameLetters found.toList bare

theorem text?_eq_some_iff {bytes : List UInt8} {text : String} :
    text? bytes = some text ↔ bytes = ofString text := by
  unfold text? ofString
  constructor
  · intro decoded
    rw [String.fromUTF8?] at decoded
    split at decoded
    · cases decoded
      rfl
    · cases decoded
  · rintro rfl
    exact (dif_pos text.isValidUTF8).trans rfl

theorem extensionOf?_of_last {stem found : List UInt8} (last : dot ∉ found) :
    extensionOf? (stem ++ dot :: found) = if stem = [] then none else some found := by
  have reversed : (stem ++ dot :: found).reverse = found.reverse ++ dot :: stem.reverse := by
    simp
  have plain : ∀ c ∈ found.reverse, (decide (c ≠ dot)) = true := by
    rintro c member
    simpa using fun same : c = dot => last (same ▸ List.mem_reverse.mp member)
  unfold extensionOf?
  rw [reversed, List.dropWhile_append_of_pos plain, List.takeWhile_append_of_pos plain,
    List.dropWhile_cons_of_neg (by simp), List.takeWhile_cons_of_neg (by simp), List.append_nil,
    List.reverse_reverse]
  cases stem using List.reverseRecOn with
  | nil => rfl
  | append_singleton stem c => simp

theorem extensionOf?_of_plain {name : FileName} (plain : dot ∉ name) :
    extensionOf? name = none := by
  have none : name.reverse.dropWhile (· ≠ dot) = [] := by
    rw [List.dropWhile_eq_nil_iff]
    rintro c member
    simpa using fun same : c = dot => plain (same ▸ List.mem_reverse.mp member)
  unfold extensionOf?
  rw [none]

/-- A name with a dot, cut at its last one. -/
theorem exists_last_dot {name : FileName} (dotted : dot ∈ name) :
    ∃ stem found, name = stem ++ dot :: found ∧ dot ∉ found := by
  obtain ⟨found, stem, same, last⟩ := List.eq_append_cons_of_mem (List.mem_reverse.mpr dotted)
  refine ⟨stem.reverse, found.reverse, ?_, by simpa using last⟩
  simpa using congrArg List.reverse same

theorem bare_iff {extension : String} {bare : List Char} :
    Bare extension.toList bare ↔ (bareExtension extension).toList = bare := by
  rw [bareExtension, String.toList_ofList]
  constructor
  · rintro ⟨dots, same, first⟩
    have all : ∀ c ∈ List.replicate dots '.', (decide (c = '.')) = true := by
      intro c member
      simpa using List.eq_of_mem_replicate member
    rw [same, List.dropWhile_append_of_pos all]
    cases bare with
    | nil => rfl
    | cons c rest =>
      apply List.dropWhile_cons_of_neg
      simpa using first
  · rintro rfl
    refine ⟨(extension.toList.takeWhile (· = '.')).length, ?_, ?_⟩
    · rw [← List.eq_replicate_of_mem fun c member => ?_, List.takeWhile_append_dropWhile]
      simpa using List.mem_takeWhile_imp member
    · intro dot
      have first := List.head?_dropWhile_not (· = '.') extension.toList
      rw [dot] at first
      simp at first

theorem last_dot_unique {stem stem' found found' : List UInt8}
    (same : stem ++ dot :: found = stem' ++ dot :: found') (last : dot ∉ found)
    (last' : dot ∉ found') : stem = stem' ∧ found = found' := by
  rcases List.append_eq_append_iff.mp same with ⟨between, rfl, rest⟩ | ⟨between, rfl, rest⟩
  · cases between with
    | nil => simpa using rest
    | cons c between =>
      obtain ⟨rfl, rfl⟩ := List.cons.inj rest
      exact absurd (by simp) last
  · cases between with
    | nil => simpa using rest.symm
    | cons c between =>
      obtain ⟨rfl, rfl⟩ := List.cons.inj rest
      exact absurd (by simp) last'

theorem accepts_join_iff {extension : String} {directory : Path} {name : FileName}
    (named : IsName name) :
    FileSearch.accepts (bareExtension extension) (join directory name) = true ↔
      HasExtension extension name := by
  unfold FileSearch.accepts HasExtension
  rw [extension?_join named]
  by_cases dotted : dot ∈ name
  · obtain ⟨stem, found, rfl, last⟩ := exists_last_dot dotted
    rw [extensionOf?_of_last last]
    constructor
    · intro accepted
      split at accepted
      · rename_i text decoded
        split_ifs at decoded with some
        · cases decoded
        · obtain rfl := text?_eq_some_iff.mp decoded
          refine ⟨stem, text, _, some, rfl, last, bare_iff.mpr rfl, ?_⟩
          simpa [equalIgnoringCase, SameLetters] using accepted
      · cases accepted
    · rintro ⟨stem', text, bare, some, same, last', bared, letters⟩
      obtain ⟨rfl, rfl⟩ := last_dot_unique same last last'
      rw [if_neg some, Option.bind_some, text?_eq_some_iff.mpr rfl]
      rw [← bare_iff.mp bared] at letters
      simpa [equalIgnoringCase, SameLetters] using letters
  · rw [extensionOf?_of_plain dotted]
    constructor
    · intro accepted
      cases accepted
    · rintro ⟨stem, found, bare, -, rfl, -⟩
      exact absurd (by simp) dotted

end Extension

end Path

end RealtimeAudio
