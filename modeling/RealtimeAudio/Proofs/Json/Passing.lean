import RealtimeAudio.Proofs.Json.Numeral
import RealtimeAudio.Proofs.Json.Strings

/-! Passing over a value. Whatever the grammar derives as a value is passed over to its last
character, nested to any depth and with numbers of any size. -/
namespace RealtimeAudio.Json
open Reader

section Scalar
variable {rest text : List Char}

theorem yields_literal (text : List Char) : Yields (literal text) (text ++ rest) () rest := by
  induction text with
  | nil => exact yields_pure _ _
  | cons c text ih =>
    refine (yields_peek _).bind ?_
    rw [List.cons_append, List.head?_cons]
    dsimp only
    rw [if_pos rfl]
    exact (yields_advance _ _).bind ih

/-- Pass over what `passNumber` finds after the fraction. -/
def passPower : Reader Unit := do
  let next ← peek
  if next = some 'e' || next = some 'E' then
    advance
    let sign ← peek
    if sign = some '+' || sign = some '-' then advance
    if (← digits).isEmpty then throw .malformed

theorem yields_passDigits {cs : List Char} (some : Digits cs) (nonempty : cs ≠ [])
    (stops : Stops rest) : Yields (do if (← digits).isEmpty then throw .malformed)
      (cs ++ rest) () rest := by
  refine (yields_digits some stops).bind ?_
  rw [if_neg (by simpa using nonempty)]
  exact yields_pure _ _

theorem yields_passPower {k : Option ℤ} (spelled : SpellsPower text k) (ends : Ends rest) :
    Yields passPower (text ++ rest) () rest := by
  cases spelled with
  | none =>
    have other : rest.head? ≠ some 'e' := Numeral.head_of_ends ends rfl
    have capital : rest.head? ≠ some 'E' := Numeral.head_of_ends ends rfl
    refine (yields_peek _).bind ?_
    rw [List.nil_append, decide_eq_false other, decide_eq_false capital]
    exact yields_pure _ _
  | @power _ text _ mark spelled =>
    rw [List.cons_append]
    refine (yields_peek _).bind ?_
    rw [if_pos (by simpa using mark)]
    refine (yields_advance _ _).bind ?_
    have stops := stops_of_ends ends
    cases spelled with
    | plain digits nonempty =>
      have plus : (text ++ rest).head? ≠ some '+' := head_digits digits nonempty rfl rest
      have minus : (text ++ rest).head? ≠ some '-' := head_digits digits nonempty rfl rest
      refine (yields_peek _).bind ?_
      dsimp only
      rw [decide_eq_false plus, decide_eq_false minus]
      exact yields_passDigits digits nonempty stops
    | plus digits nonempty =>
      exact (yields_peek _).bind ((yields_advance _ _).bind
        (yields_passDigits digits nonempty stops))
    | minus digits nonempty =>
      exact (yields_peek _).bind ((yields_advance _ _).bind
        (yields_passDigits digits nonempty stops))

/-- A number without its sign. -/
theorem yields_passNumber {n : Numeral} {power : List Char} (sound : n.Sound)
    (spelled : SpellsPower power n.power) (ends : Ends rest) :
    Yields passNumber (n.whole ++ (n.pointText ++ (power ++ rest))) () rest := by
  have leads : (n.whole.isEmpty ||
      decide (n.whole.length ≠ 1) && decide (n.whole.head? = some '0')) = false := by
    have nonempty := sound.nonempty
    rcases sound.leads with other | single
    · simp [nonempty, other]
    · simp [nonempty, single]
  refine (yields_digits sound.whole (Numeral.stops_pointText spelled ends)).bind ?_
  dsimp only
  rw [leads, if_neg Bool.false_ne_true]
  unfold Numeral.pointText
  split_ifs with none
  · refine (yields_peek _).bind ?_
    rw [List.nil_append, if_neg (Numeral.head_power spelled ends)]
    exact yields_passPower spelled ends
  · refine (yields_peek _).bind ((yields_advance _ _).bind ?_)
    refine (yields_digits sound.fraction (Numeral.stops_power spelled ends)).bind ?_
    rw [if_neg (by simpa using none)]
    exact yields_passPower spelled ends

/-- A value without members: its first character tells how it is passed over. -/
def Scalar (text : List Char) : Prop := ∀ rest, Ends rest → ∃ c tail, text ++ rest = c :: tail ∧
  isEnd c = false ∧ Bracket.opening? c = none ∧ Yields (passScalar c) (text ++ rest) () rest

theorem passScalar_digit {c : Char} (digit : isDigit c = true) : passScalar c = passNumber := by
  unfold passScalar
  split
  all_goals first
    | cases digit
    | rw [if_pos digit]

theorem opening?_digit {c : Char} (digit : isDigit c = true) : Bracket.opening? c = none := by
  unfold Bracket.opening?
  split
  all_goals first
    | cases digit
    | rfl

theorem scalar_number (spelled : SpellsNumber text) : Scalar text := by
  intro rest ends
  obtain ⟨n, sound, spelled⟩ := spelled
  obtain ⟨power, spelled, parts⟩ := spelled.parts rest
  have pass := yields_passNumber sound spelled ends
  rw [parts]
  unfold Numeral.signText
  split_ifs
  · exact ⟨'-', _, rfl, rfl, rfl, (yields_advance _ _).bind pass⟩
  · obtain ⟨c, tail, same⟩ := List.exists_cons_of_ne_nil sound.nonempty
    have digit : isDigit c = true := sound.whole c (same ▸ List.mem_cons_self)
    have mark : isEnd c = false := by
      by_contra mark
      exact absurd digit (by simp [not_digit_of_end (Bool.not_eq_false _ ▸ mark)])
    refine ⟨c, tail ++ (n.pointText ++ (power ++ rest)), by rw [same]; rfl, mark,
      opening?_digit digit, ?_⟩
    rw [passScalar_digit digit]
    exact pass

theorem scalar_string {cs : List Char} (spelled : SpellsString SpellsAny text cs) :
    Scalar ('"' :: (text ++ ['"'])) := by
  intro rest _
  refine ⟨'"', _, rfl, rfl, rfl, (yields_advance _ _).bind ?_⟩
  simpa using yields_passString spelled

end Scalar

section Nesting

/-- What passing over a value goes on with, when these brackets are still open. -/
def proceed (fuel : List Char) : List Bracket → Reader Unit
  | [] => pure ()
  | .array :: outer => passLoop fuel (.array :: outer)
  | .object :: outer => do
    passName
    passLoop fuel (.object :: outer)

/-- After a value, brackets are closed and what follows is passed over, up to `out`. -/
def Resumes (brackets : List Bracket) (text out : List Char) : Prop := ∀ fuel : List Char,
  text.length ≤ fuel.length → Yields (close brackets >>= proceed fuel) text () out

/-- A part is passed over if what follows it is. -/
def Passes : Part → List Char → Prop
  | .value, text => ∀ brackets rest out, Ends rest → Resumes brackets rest out →
      ∀ fuel : List Char, (text ++ rest).length ≤ fuel.length →
        Yields (passLoop fuel brackets) (text ++ rest) () out
  | .item b, text => ∀ brackets rest out, Ends rest → Resumes (b :: brackets) rest out →
      ∀ fuel : List Char, (text ++ rest).length ≤ fuel.length →
        Yields (proceed fuel (b :: brackets)) (text ++ rest) () out
  | .rest b, text => ∀ brackets rest out, Resumes brackets rest out →
      Resumes (b :: brackets) (text ++ rest) out

variable {b : Bracket} {brackets : List Bracket} {text rest out fuel : List Char}

theorem opening?_opening (b : Bracket) : Bracket.opening? b.opening = some b := by
  cases b <;> rfl

theorem visible_opening (b : Bracket) : isBlank b.opening = false := by
  cases b <;> rfl

theorem visible_closing (b : Bracket) : isBlank b.closing = false := by
  cases b <;> rfl

theorem closing_ne_comma (b : Bracket) : b.closing ≠ ',' := by
  cases b <;> decide

theorem opening_ne_closing (b b' : Bracket) : b.opening ≠ b'.closing := by
  cases b <;> cases b' <;> decide

theorem isEnd_closing (b : Bracket) : isEnd b.closing = true := by
  cases b <;> rfl

theorem ends_of_blanks {blanks : List Char} {c : Char} (blank : Blanks blanks)
    (mark : isEnd c = true) (tail : List Char) : Ends (blanks ++ c :: tail) := by
  cases blanks with
  | nil => exact ends_cons mark tail
  | cons d blanks =>
    refine ends_cons ?_ _
    simp [isEnd, blank d List.mem_cons_self]

theorem ends_of_rest (spelled : Spells (.rest b) text) (rest : List Char) :
    Ends (text ++ rest) := by
  cases spelled with
  | close blank =>
    rw [List.append_assoc]
    exact ends_of_blanks blank (isEnd_closing b) rest
  | next blank item more =>
    rw [List.append_assoc]
    exact ends_of_blanks blank rfl _

/-- A value starts with a character that is neither blank nor closes a bracket. -/
theorem head_value (spelled : Spells .value text) (rest : List Char) (ends : Ends rest) :
    ∃ c tail, text ++ rest = c :: tail ∧ isBlank c = false ∧ ∀ b : Bracket, c ≠ b.closing := by
  have other {c : Char} (visible : isEnd c = false) :
      isBlank c = false ∧ ∀ b : Bracket, c ≠ b.closing := by
    refine ⟨by simpa using (Bool.or_eq_false_iff.mp visible).2, ?_⟩
    rintro b rfl
    exact absurd (isEnd_closing b) (by simp [visible])
  cases spelled with
  | null => exact ⟨'n', _, rfl, other rfl⟩
  | true => exact ⟨'t', _, rfl, other rfl⟩
  | false => exact ⟨'f', _, rfl, other rfl⟩
  | number spelled =>
    obtain ⟨c, tail, same, visible, -⟩ := scalar_number spelled rest ends
    exact ⟨c, tail, same, other visible⟩
  | string spelled => exact ⟨'"', _, rfl, other rfl⟩
  | @empty b blanks blank => exact ⟨b.opening, _, rfl, visible_opening b, opening_ne_closing b⟩
  | @bracket b item more spelled later =>
    exact ⟨b.opening, _, rfl, visible_opening b, opening_ne_closing b⟩

/-- So does an item, after blanks. -/
theorem head_item (spelled : Spells (.item b) text) (ends : Ends rest) : ∃ blanks c tail,
    text ++ rest = blanks ++ c :: tail ∧ Blanks blanks ∧ isBlank c = false ∧ c ≠ b.closing := by
  cases spelled with
  | @element blanks text blank spelled =>
    obtain ⟨c, tail, same, visible, other⟩ := head_value spelled rest ends
    refine ⟨blanks, c, tail, by rw [List.append_assoc, same], blank, visible, other _⟩
  | @member before name _ between after text blank spelled _ _ value =>
    exact ⟨before, '"', _, by rw [List.append_assoc]; rfl, blank, rfl, by decide⟩

theorem passLoop_cons (d : Char) (fuel : List Char) (brackets : List Bracket) :
    passLoop (d :: fuel) brackets = (do
      let c ← upcoming
      match Bracket.opening? c with
      | some b => do
        advance
        enter b brackets >>= proceed fuel
      | none => do
        passScalar c
        close brackets >>= proceed fuel) := by
  have onwards (still : List Bracket) : (match still with
      | [] => pure ()
      | .array :: _ => passLoop fuel still
      | .object :: _ => do
        passName
        passLoop fuel still) = proceed fuel still := by
    match still with
    | [] => rfl
    | .array :: outer => rfl
    | .object :: outer => rfl
  unfold passLoop
  refine bind_congr fun c => ?_
  cases Bracket.opening? c with
  | some b => exact bind_congr fun _ => bind_congr onwards
  | none => exact bind_congr fun _ => bind_congr onwards

theorem skips_passLoop (fuel : List Char) (brackets : List Bracket) :
    Skips (passLoop fuel brackets) := by
  cases fuel with
  | nil =>
    rintro blanks text -
    rfl
  | cons d fuel =>
    rw [passLoop_cons]
    exact skips_upcoming.bind

theorem skips_proceed (fuel : List Char) (b : Bracket) (brackets : List Bracket) :
    Skips (proceed fuel (b :: brackets)) := by
  cases b with
  | array => exact skips_passLoop fuel _
  | object => exact (skips_mark '"').bind.bind

/-- A value that is opened by a bracket. -/
theorem run_passLoop_opening (d : Char) (fuel : List Char) (b : Bracket) (brackets : List Bracket)
    (text : List Char) : StateT.run (passLoop (d :: fuel) brackets) (b.opening :: text) =
      StateT.run (enter b brackets >>= proceed fuel) text := by
  rw [passLoop_cons, (yields_upcoming (visible_opening b) text).run_bind, opening?_opening]
  exact (yields_advance _ _).run_bind

theorem skips_enter (b : Bracket) (brackets : List Bracket) : Skips (enter b brackets) :=
  skips_upcoming.bind

theorem skips_close (b : Bracket) (brackets : List Bracket) : Skips (close (b :: brackets)) :=
  skips_upcoming.bind

theorem passes_scalar (scalar : Scalar text) : Passes .value text := by
  intro brackets rest out ends resumes fuel enough
  obtain ⟨c, tail, same, visible, none, pass⟩ := scalar rest ends
  have seen : isBlank c = false := (Bool.or_eq_false_iff.mp visible).2
  have some : 0 < text.length := by
    cases text with
    | cons => simp
    | nil =>
      exact absurd (ends c tail same) (by simp [visible])
  cases fuel with
  | nil => simp [same] at enough
  | cons d fuel =>
    rw [List.length_append, List.length_cons] at enough
    rw [same] at pass ⊢
    rw [passLoop_cons]
    refine (yields_upcoming seen tail).bind ?_
    rw [none]
    exact pass.bind (resumes fuel (by omega))

theorem passes_close {blanks : List Char} (blank : Blanks blanks) :
    Passes (.rest b) (blanks ++ [b.closing]) := by
  intro brackets rest out resumes fuel enough
  rw [List.length_append, List.length_append, List.length_singleton] at enough
  rw [List.append_assoc]
  refine (skips_close b brackets).bind.yields blank ?_
  rw [close, bind_assoc]
  refine (yields_upcoming (visible_closing b) rest).bind ?_
  rw [if_neg (closing_ne_comma b), if_pos rfl, bind_assoc]
  exact (yields_advance _ _).bind (resumes fuel (by omega))

/-- Whatever the grammar derives is passed over. -/
theorem passes_of_spells {part : Part} (spelled : Spells part text) : Passes part text := by
  induction spelled with
  | null => exact passes_scalar fun rest _ => ⟨'n', _, rfl, rfl, rfl, yields_literal _⟩
  | true => exact passes_scalar fun rest _ => ⟨'t', _, rfl, rfl, rfl, yields_literal _⟩
  | false => exact passes_scalar fun rest _ => ⟨'f', _, rfl, rfl, rfl, yields_literal _⟩
  | number spelled => exact passes_scalar (scalar_number spelled)
  | string spelled => exact passes_scalar (scalar_string spelled)
  | @empty b blanks blank =>
    intro brackets rest out ends resumes fuel enough
    cases fuel with
    | nil => simp at enough
    | cons d fuel =>
      simp only [List.length_append, List.length_cons] at enough
      rw [List.cons_append, List.append_assoc, Yields, run_passLoop_opening]
      refine (skips_enter b brackets).bind.yields blank ?_
      unfold enter
      rw [bind_assoc]
      refine (yields_upcoming (visible_closing b) rest).bind ?_
      rw [if_pos rfl, bind_assoc]
      exact (yields_advance _ _).bind (resumes fuel (by omega))
  | @bracket b item more spelled later passItem passRest =>
    intro brackets rest out ends resumes fuel enough
    cases fuel with
    | nil => simp at enough
    | cons d fuel =>
      have ends := ends_of_rest later rest
      obtain ⟨blanks, c, tail, same, blank, visible, other⟩ := head_item spelled ends
      have inside := passItem brackets (more ++ rest) out ends
        (passRest brackets rest out resumes) fuel (by simp at enough ⊢; omega)
      rw [List.cons_append, List.append_assoc, Yields, run_passLoop_opening]
      rw [same] at inside ⊢
      refine (skips_enter b brackets).bind.yields blank ?_
      unfold enter
      rw [bind_assoc]
      refine (yields_upcoming visible tail).bind ?_
      rw [if_neg other]
      exact (yields_pure _ _).bind ((skips_proceed fuel b brackets _ _ blank).symm.trans inside)
  | element blank spelled pass =>
    intro brackets rest out ends resumes fuel enough
    rw [List.append_assoc] at enough ⊢
    rw [List.length_append] at enough
    exact (skips_passLoop fuel _).yields blank
      (pass _ rest out ends resumes fuel (by omega))
  | member blank named between after spelled pass =>
    intro brackets rest out ends resumes fuel enough
    simp only [List.append_assoc, List.cons_append] at enough ⊢
    refine (skips_proceed fuel _ _).yields blank ?_
    refine Yields.bind ((yields_mark rfl).bind ((yields_passString named).bind
      ((skips_mark ':').yields between (yields_mark rfl)))) ?_
    simp only [List.length_append, List.length_cons] at enough
    exact (skips_passLoop fuel _).yields after
      (pass _ rest out ends resumes fuel (by rw [List.length_append]; omega))
  | close blank => exact passes_close blank
  | @next b blanks item more blank spelled later passItem passRest =>
    intro brackets rest out resumes fuel enough
    simp only [List.append_assoc, List.cons_append, List.length_append, List.length_cons]
      at enough ⊢
    have ends := ends_of_rest later rest
    refine (skips_close b brackets).bind.yields blank ?_
    rw [close, bind_assoc]
    refine (yields_upcoming rfl _).bind ?_
    rw [if_pos rfl, bind_assoc]
    refine (yields_advance _ _).bind ((yields_pure _ _).bind ?_)
    exact passItem brackets (more ++ rest) out ends (passRest brackets rest out resumes) fuel
      (by simp only [List.length_append]; omega)

/-- Any value is passed over, with the blanks in front of it. -/
theorem yields_passValue {blanks : List Char} (blank : Blanks blanks)
    (spelled : Spells .value text) (ends : Ends rest) :
    Yields passValue (blanks ++ (text ++ rest)) () rest := by
  refine (yields_get _).bind ((skips_passLoop _ _).yields blank ?_)
  refine passes_of_spells spelled [] rest rest ends (fun _ _ => yields_pure _ _) _ ?_
  simp

end Nesting

end RealtimeAudio.Json
