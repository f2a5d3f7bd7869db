import RealtimeAudio.Proofs.Json.Objects
import RealtimeAudio.Proofs.Json.RoundTrip

/-! Reading a record as it is written: an object of all its fields in order, without blanks. The
values are put in one after another, and the first that is refused ends the reading. -/
namespace RealtimeAudio.Json
open Reader

section Texts

/-- A member as it is written. -/
def entryText (m : String × List Char) : List Char := '"' :: m.1.toList ++ '"' :: ':' :: m.2

/-- A member whose name has no escapes. -/
def Plain (m : String × List Char) : Prop :=
  isPlainText m.1.toList = true ∧ Spells .value m.2

theorem Plain.of {name : String} {value : List Char} (plain : isPlainText name.toList = true)
    (spelled : Spells .value value) : Plain (name, value) := ⟨plain, spelled⟩

theorem Plain.spelled {m : String × List Char} (plain : Plain m) :
    SpellsMember m (entryText m) :=
  .member blanks_nil (spellsString_plain plain.1) blanks_nil blanks_nil plain.2

theorem intercalate_cons (text : List Char) (texts : List (List Char)) :
    List.intercalate [','] (text :: texts) = text ++ texts.flatMap (',' :: ·) := by
  induction texts generalizing text with
  | nil => simp
  | cons other texts ih =>
    rw [List.intercalate_cons_cons, ih, List.flatMap_cons]
    simp

theorem spellsMembers_flatMap {ms : List (String × List Char)} (plain : ∀ m ∈ ms, Plain m) :
    SpellsMembers false ms ((ms.map entryText).flatMap (',' :: ·)) := by
  induction ms with
  | nil => exact .close blanks_nil
  | cons m ms ih =>
    rw [List.forall_mem_cons] at plain
    exact .next blanks_nil plain.1.spelled (ih plain.2)

theorem spellsObject_object {ms : List (String × List Char)} (plain : ∀ m ∈ ms, Plain m) :
    SpellsObject ms (object ms) := by
  refine ⟨List.intercalate [','] (ms.map entryText), ?_, rfl⟩
  cases ms with
  | nil => exact .close blanks_nil
  | cons m ms =>
    rw [List.forall_mem_cons] at plain
    rw [List.map_cons, intercalate_cons]
    exact .first plain.1.spelled (spellsMembers_flatMap plain.2)

theorem spells_natural (n : ℕ) : Spells .value (natural n) := by
  have spelled : Numeral.SpelledBy ⟨false, natural n, [], none⟩ _ := Numeral.spelledBy_text
  rw [natural_text] at spelled
  exact .number ⟨_, natural_sound n, spelled⟩

theorem spells_bool (b : Bool) : Spells .value (bool b) := by
  cases b with
  | true => exact .true
  | false => exact .false

theorem spells_single (x : Float32) : Spells .value (Layout.jsonSingle.writeSingle x) := by
  cases finite : x.isFinite with
  | true =>
    obtain ⟨n, y, sound, -, text, -, -⟩ := exists_numeral finite
    exact .number ⟨n, sound, text ▸ Numeral.spelledBy_text⟩
  | false =>
    rw [writeSingle_of_not_finite finite]
    exact .null

end Texts

section Fields
variable {σ β : Type} {a s t : σ} {name : String} {get : σ → β} {set : β → σ → σ}
  {fields rest whole : Fields σ} {seen : List String} {result : Except ReadError σ}

/-- What the texts of the fields of `a` make of a record. -/
inductive ReadsBack (a : σ) : Fields σ → σ → Except ReadError σ → Prop
  | none {s : σ} : ReadsBack a .none s (.ok s)
  | given {s : σ} {name : String} {β : Type} {kind : Kind β} {get : σ → β} {set : β → σ → σ}
      {rest : Fields σ} {result : Except ReadError σ} :
      Codec.read kind (kind.text (get a)) = .ok (get a) → ReadsBack a rest (set (get a) s) result →
      ReadsBack a (.field name kind get set rest) s result
  | refused {s : σ} {name : String} {β : Type} {kind : Kind β} {get : σ → β} {set : β → σ → σ}
      {rest : Fields σ} : Codec.read kind (kind.text (get a)) = .error .mistyped →
      ReadsBack a (.field name kind get set rest) s (.error .mistyped)

theorem ReadsBack.visits (read : ReadsBack a fields s result) (distinct : fields.names.Nodup)
    (part : ∀ {β : Type} {name : String} {kind : Kind β} {set : β → σ → σ},
      fields.Has name kind set → whole.Has name kind set)
    (fresh : ∀ name ∈ fields.names, name ∉ seen) :
    Visits whole seen s (fields.texts a) result := by
  induction read generalizing seen with
  | none => exact .done
  | given value _ ih =>
    obtain ⟨single, distinct⟩ := List.nodup_cons.mp distinct
    obtain ⟨unseen, fresh⟩ := List.forall_mem_cons.mp fresh
    refine .given (part .here) unseen value (ih distinct (fun has => part has.later) ?_)
    intro other listed again
    rcases List.mem_cons.mp again with rfl | earlier
    · exact single listed
    · exact fresh other listed earlier
  | refused value => exact .refused (part .here) (fresh _ List.mem_cons_self) value

/-- A record is read as its fields are. -/
theorem ReadsBack.read (read : ReadsBack a fields s result) (distinct : fields.names.Nodup)
    (plain : ∀ m ∈ fields.texts a, Plain m) :
    Codec.read (.record fields s) (Codec.write (.record fields s) a) = result :=
  rules.record distinct (spellsObject_object plain).document
    (read.visits distinct id fun _ _ => List.not_mem_nil)

/-- The end of the fields, where none was refused. -/
theorem readsBack_none : ReadsBack a .none s (if true then .ok s else .error .mistyped) := .none

theorem ReadsBack.natural {get : σ → ℕ} {set : ℕ → σ → σ} {limit : ℕ} (within : get a ≤ limit)
    (fits : get a < UInt64.size) (later : ReadsBack a rest (set (get a) s) result) :
    ReadsBack a (.field name (.natural limit) get set rest) s result := by
  have read := rules.natural within fits
  rw [toList_toString] at read
  exact .given read later

theorem ReadsBack.bool {get : σ → Bool} {set : Bool → σ → σ}
    (later : ReadsBack a rest (set (get a) s) result) :
    ReadsBack a (.field name .bool get set rest) s result := by
  refine .given ?_ later
  have read := rules.bool (get a)
  cases value : get a <;> rwa [value] at read

/-- A number is refused if it is not finite. -/
theorem ReadsBack.single {get : σ → Float32} {set : Float32 → σ → σ} {finite : Bool}
    (later : ReadsBack a rest (set (get a) s) (if finite then .ok t else .error .mistyped)) :
    ReadsBack a (.field name .single get set rest) s
      (if (get a).isFinite && finite then .ok t else .error .mistyped) := by
  cases value : (get a).isFinite with
  | true =>
    have read : Yields wantedSingle (Layout.jsonSingle.writeSingle (get a) ++ []) (get a) [] :=
      yields_wantedSingle value ends_nil
    rw [List.append_nil] at read
    exact .given (run_of_yields read blanks_nil) later
  | false =>
    have refused : Refuses wantedSingle (Layout.jsonSingle.writeSingle (get a) ++ []) .mistyped :=
      refuses_wantedSingle value
    rw [List.append_nil] at refused
    exact .refused (run_of_refuses refused)

end Fields

end RealtimeAudio.Json
