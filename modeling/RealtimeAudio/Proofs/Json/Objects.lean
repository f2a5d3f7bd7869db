import RealtimeAudio.Proofs.Json.Extension
import RealtimeAudio.Proofs.Json.Range
import RealtimeAudio.Proofs.Json.Values

/-! Reading a record from any object: members in any order, with blanks anywhere, names with escapes
in them, and members that the record does not know. What is read depends on the known members alone.
-/
namespace RealtimeAudio.Json
open Reader

section Reading
variable {σ : Type} {fields : List (FieldReader σ)} {seen : List String}
  {ms : List (String × List Char)} {text rest fuel : List Char}

/-- What `members` does after a name. -/
def continueMember (fields : List (FieldReader σ)) (fuel : List Char) (seen : List String) (s : σ)
    (name : String) : Reader σ :=
  match fields.find? (·.name == name) with
  | some field => do
    if seen.contains name then throw .mistyped
    mark ':'
    let assign ← field.read
    members fields fuel (name :: seen) false (assign s)
  | none => do
    mark ':'
    passValue
    members fields fuel seen false s

theorem members_cons (c : Char) (first : Bool) (s : σ) : members fields (c :: fuel) seen first s =
    (do
      if ← hasMember first then
        let name ← string
        continueMember fields fuel seen s (String.ofList name)
      else return s) := rfl

section Continue
variable {between after value : List Char} {name : String} {field : FieldReader σ} {s : σ}

theorem find?_of_not_mem (unknown : name ∉ fields.map (·.name)) :
    fields.find? (·.name == name) = none := by
  rw [List.find?_eq_none]
  rintro field member same
  exact unknown (List.mem_map.mpr ⟨field, member, eq_of_beq same⟩)

theorem exists_find? (known : name ∈ fields.map (·.name)) : ∃ field ∈ fields,
    field.name = name ∧ fields.find? (·.name == name) = some field := by
  cases found : fields.find? (·.name == name) with
  | none =>
    obtain ⟨field, member, same⟩ := List.mem_map.mp known
    exact absurd (beq_iff_eq.mpr same) (List.find?_eq_none.mp found field member)
  | some field =>
    have same := List.find?_some found
    exact ⟨field, List.mem_of_find?_eq_some found, eq_of_beq same, rfl⟩

theorem run_continueMember_unknown (unknown : name ∉ fields.map (·.name)) (blank : Blanks between)
    (blank' : Blanks after) (valued : Spells .value value) (ends : Ends rest) :
    StateT.run (continueMember fields fuel seen s name)
        (between ++ ':' :: (after ++ (value ++ rest))) =
      StateT.run (members fields fuel seen false s) rest := by
  unfold continueMember
  rw [find?_of_not_mem unknown, ((skips_mark ':').yields blank (yields_mark rfl)).run_bind,
    (yields_passValue blank' valued ends).run_bind]

theorem run_continueMember_known (found : fields.find? (·.name == name) = some field)
    (fresh : name ∉ seen) (blank : Blanks between) :
    StateT.run (continueMember fields fuel seen s name) (between ++ ':' :: rest) =
      StateT.run (do
        let assign ← field.read
        members fields fuel (name :: seen) false (assign s)) rest := by
  unfold continueMember
  rw [found]
  dsimp only
  rw [if_neg (by simpa using fresh), ((skips_mark ':').yields blank (yields_mark rfl)).run_bind]

theorem refuses_continueMember (found : fields.find? (·.name == name) = some field)
    (repeated : name ∈ seen) :
    Refuses (continueMember fields fuel seen s name) text .mistyped := by
  unfold continueMember
  rw [found]
  dsimp only
  rw [if_pos (by simpa using repeated)]
  rfl

end Continue

theorem yields_hasMember_end {first : Bool} {blanks : List Char} (blank : Blanks blanks) :
    Yields (hasMember first) (blanks ++ '}' :: rest) false ('}' :: rest) :=
  (skips_upcoming.bind).yields blank ((yields_upcoming rfl rest).bind (yields_pure _ _))

theorem yields_hasMember_first {blanks : List Char} (blank : Blanks blanks) :
    Yields (hasMember true) (blanks ++ '"' :: rest) true rest :=
  (skips_upcoming.bind).yields blank
    ((yields_upcoming rfl _).bind ((yields_mark rfl).bind (yields_pure _ _)))

theorem yields_hasMember_next {blanks before : List Char} (blank : Blanks blanks)
    (blank' : Blanks before) :
    Yields (hasMember false) (blanks ++ ',' :: (before ++ '"' :: rest)) true rest :=
  (skips_upcoming.bind).yields blank ((yields_upcoming rfl _).bind ((yields_mark rfl).bind
    (((skips_mark '"').yields blank' (yields_mark rfl)).bind (yields_pure _ _))))

theorem ends_of_members (spelled : SpellsMembers false ms text) (rest : List Char) :
    Ends (text ++ '}' :: rest) := by
  cases spelled with
  | close blank => exact ends_of_blanks blank rfl rest
  | next blank member more =>
    rw [List.append_assoc]
    exact ends_of_blanks blank rfl _

/-- The name of the first of some members is read, and what follows it is still to come. -/
theorem SpellsMembers.cons {first : Bool} {name : String} {value : List Char}
    (spelled : SpellsMembers first ((name, value) :: ms) text) :
    ∃ between after more, Blanks between ∧ Blanks after ∧ Spells .value value ∧
      SpellsMembers false ms more ∧ more.length < text.length ∧
      ∀ (c : Char) (fuel : List Char) (seen : List String) (s : σ) (rest : List Char),
        StateT.run (members fields (c :: fuel) seen first s) (text ++ rest) =
          StateT.run (continueMember fields fuel seen s name)
            (between ++ ':' :: (after ++ (value ++ (more ++ rest)))) := by
  have named {first : Bool} {text spelling : List Char} {more : List Char}
      (found : Yields (hasMember first) text true (spelling ++ '"' :: more))
      (spelled : SpellsString SpellsPoint spelling name.toList) (c : Char) (fuel : List Char)
      (seen : List String) (s : σ) :
      StateT.run (members fields (c :: fuel) seen first s) text =
        StateT.run (continueMember fields fuel seen s name) more := by
    rw [members_cons, found.run_bind, if_pos rfl, (yields_string spelled).run_bind,
      String.ofList_toList]
  cases spelled with
  | @first _ _ _ more member later =>
    cases member with
    | @member _ before spelling between after _ blank spelled blank' blank'' valued =>
      refine ⟨between, after, more, blank', blank'', valued, later, by simp; omega,
        fun c fuel seen s rest => named ?_ spelled c fuel seen s⟩
      simpa using yields_hasMember_first blank
  | @next _ _ blanks _ more blank member later =>
    cases member with
    | @member _ before spelling between after _ blank' spelled blank'' blank''' valued =>
      refine ⟨between, after, more, blank'', blank''', valued, later, by simp; omega,
        fun c fuel seen s rest => named ?_ spelled c fuel seen s⟩
      simpa using yields_hasMember_next blank blank'

theorem skips_members (first : Bool) (s : σ) : Skips (members fields fuel seen first s) := by
  cases fuel with
  | nil =>
    rintro blanks text -
    rfl
  | cons c fuel => exact skips_upcoming.bind.bind

end Reading

section Values
variable {α : Type} {reader : Reader α} {text rest left : List Char} {a : α} {fault : ReadError}

theorem run_eq : reader.run text = match StateT.run reader text with
    | .ok (a, left) => if left.all isBlank then .ok a else .error .malformed
    | .error fault => .error fault := by
  unfold Reader.run
  cases StateT.run reader text <;> rfl

theorem run_of_yields (read : Yields reader text a left) (blank : Blanks left) :
    reader.run text = .ok a := by
  rw [run_eq, read]
  exact if_pos (List.all_eq_true.mpr blank)

theorem run_of_refuses (refused : Refuses reader text fault) :
    reader.run text = .error fault := by
  rw [run_eq, refused]

theorem run_eq_ok (read : reader.run text = .ok a) :
    ∃ left, Blanks left ∧ Yields reader text a left := by
  rw [run_eq] at read
  split at read
  · rename_i b left outcome
    split_ifs at read with blank
    obtain rfl := Except.ok.inj read
    exact ⟨left, List.all_eq_true.mp blank, outcome⟩
  · cases read

theorem run_eq_mistyped (read : reader.run text = .error .mistyped) :
    Refuses reader text .mistyped := by
  rw [run_eq] at read
  split at read
  · split_ifs at read
    cases read
  · rename_i outcome
    obtain rfl := Except.error.inj read
    exact outcome

end Values

theorem FieldReader.of_read {σ β : Type} (name : String) (reader : Reader β) (set : β → σ → σ) :
    (FieldReader.of name reader set).read = set <$> reader := rfl

section Fields
variable {σ β : Type} {name : String} {kind : Kind β} {set : β → σ → σ} {fields : Fields σ}

theorem names_readers {σ : Type} : (fields : Fields σ) →
    fields.readers.map (·.name) = fields.names
  | .none => rfl
  | .field name _ _ _ rest => congrArg (name :: ·) (names_readers rest)

theorem Fields.Has.find? (has : fields.Has name kind set) (distinct : fields.names.Nodup) :
    fields.readers.find? (·.name == name) = some (.of name kind.reader set) := by
  induction has with
  | here => exact List.find?_cons_of_pos (beq_self_eq_true name)
  | @later _ other _ _ _ rest has ih =>
    obtain ⟨fresh, distinct⟩ := List.nodup_cons.mp distinct
    have differs : other ≠ name := fun same => fresh (same ▸ has.mem_names)
    rw [Fields.readers, List.find?_cons_of_neg (by simpa [FieldReader.of] using differs)]
    exact ih distinct

variable {s : σ} {seen : List String} {ms : List (String × List Char)}
  {text rest fuel : List Char} {result : Except ReadError σ}

/-- Reading the members of an object is visiting them. The induction is on the visits; whatever
blanks a value leaves are skipped by what comes next. -/
theorem run_members (visits : Visits fields seen s ms result) (distinct : fields.names.Nodup)
    {first : Bool} (spelled : SpellsMembers first ms text) (enough : text.length < fuel.length) :
    StateT.run (members fields.readers fuel seen first s) (text ++ '}' :: rest) =
      result.map (·, '}' :: rest) := by
  induction visits generalizing text fuel first with
  | done =>
    obtain ⟨c, fuel, rfl⟩ := List.exists_cons_of_length_pos (Nat.zero_lt_of_lt enough)
    cases spelled with
    | close blank =>
      rw [members_cons]
      exact (yields_hasMember_end blank).run_bind
  | unknown unknown _ ih =>
    obtain ⟨c, fuel, rfl⟩ := List.exists_cons_of_length_pos (Nat.zero_lt_of_lt enough)
    obtain ⟨between, after, more, blank, blank', valued, spelled, shorter, read⟩ := spelled.cons
    rw [List.length_cons] at enough
    rw [read, run_continueMember_unknown (by rwa [names_readers]) blank blank' valued
      (ends_of_members spelled rest)]
    exact ih spelled (by omega)
  | @given _ _ _ _ _ _ set _ _ _ has fresh value _ ih =>
    obtain ⟨c, fuel, rfl⟩ := List.exists_cons_of_length_pos (Nat.zero_lt_of_lt enough)
    obtain ⟨between, after, more, blank, blank', valued, spelled, shorter, read⟩ := spelled.cons
    obtain ⟨left, blank'', value⟩ := run_eq_ok value
    have ends := ends_of_members spelled rest
    rw [List.length_cons] at enough
    rw [read, run_continueMember_known (has.find? distinct) fresh blank]
    have assigned := ((Kind.skips_reader _).yields blank'
      ((Kind.extends_reader _).yields ends value)).map set
    rw [FieldReader.of_read, assigned.run_bind, skips_members _ _ _ _ blank'']
    exact ih spelled (by omega)
  | refused has fresh value =>
    obtain ⟨c, fuel, rfl⟩ := List.exists_cons_of_length_pos (Nat.zero_lt_of_lt enough)
    obtain ⟨between, after, more, blank, blank', valued, spelled, shorter, read⟩ := spelled.cons
    have ends := ends_of_members spelled rest
    rw [read, run_continueMember_known (has.find? distinct) fresh blank]
    exact (((Kind.skips_reader _).refuses blank' ((Kind.extends_reader _).refuses ends
      (run_eq_mistyped value) nofun)).map _).bind
  | repeated member again =>
    obtain ⟨c, fuel, rfl⟩ := List.exists_cons_of_length_pos (Nat.zero_lt_of_lt enough)
    obtain ⟨field, listed, rfl, found⟩ := exists_find? (names_readers fields ▸ member)
    obtain ⟨between, after, more, -, -, -, -, -, read⟩ := spelled.cons
    rw [read]
    exact refuses_continueMember found again

/-- An object comes to what its members make of the record. -/
theorem run_record {initial : σ} (visits : Visits fields [] initial ms result)
    (distinct : fields.names.Nodup) (spelled : SpellsObject ms text) :
    StateT.run (record fields.readers initial) (text ++ rest) = result.map (·, rest) := by
  obtain ⟨inside, spelled, rfl⟩ := spelled
  have read : StateT.run (members fields.readers (inside ++ '}' :: rest) [] true initial)
      (inside ++ '}' :: rest) = result.map (·, '}' :: rest) :=
    run_members visits distinct spelled (by simp)
  have opened : Yields upcoming ('{' :: (inside ++ '}' :: rest)) '{' _ := yields_upcoming rfl _
  rw [List.cons_append, List.append_assoc, List.singleton_append]
  refine opened.run_bind.trans ((yields_advance _ _).run_bind.trans
    ((yields_get _).run_bind.trans ?_))
  cases result with
  | error fault => exact Refuses.bind read
  | ok s =>
    have closed : Yields (mark '}') ('}' :: rest) () rest := yields_mark rfl
    exact Yields.bind read (closed.bind (yields_pure s rest))

end Fields

theorem toList_toString (n : ℕ) : (toString n).toList = natural n := String.toList_ofList

/-- What is promised of a library holds of these readers. -/
theorem rules : Codec.Rules where
  bool b := by
    cases b <;> rfl
  natural {limit n} within fits := by
    have read : Yields (wantedNatural limit) (natural n ++ []) n [] :=
      yields_wantedNatural within fits ends_nil
    rw [List.append_nil] at read
    rw [toList_toString]
    exact run_of_yields read blanks_nil
  single {n text} sound spelled most := by
    obtain ⟨v, value⟩ := Option.isSome_iff_exists.mp (Numeral.number?_isSome sound most)
    have read := Numeral.yields_wantedSingle sound spelled value ends_nil
    rw [List.append_nil] at read
    exact ⟨_, run_of_yields read blanks_nil⟩
  record {σ fields initial ms text result} distinct document visits := by
    obtain ⟨before, object, after, blank, spelled, blank', rfl⟩ := document
    have read := skips_record fields.readers initial before (object ++ after) blank
    rw [run_record visits distinct spelled] at read
    cases result with
    | ok s => exact run_of_yields read blank'
    | error fault => exact run_of_refuses read

end RealtimeAudio.Json
