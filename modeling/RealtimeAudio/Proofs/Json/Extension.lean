import RealtimeAudio.Proofs.Json.Passing

/-! What follows a value has no part in reading it. A reader that comes to an end on a text does the
same when the text goes on after the value, and so it does with a fault, unless the fault was that
there was no more text. -/
namespace RealtimeAudio.Json
open Reader

/-- What reading a text comes to, and what it comes to when more follows. -/
inductive Prolonged {α : Type} (rest : List Char) :
    Except ReadError (α × List Char) → Except ReadError (α × List Char) → Prop
  | ok {a : α} {left : List Char} : Prolonged rest (.ok (a, left)) (.ok (a, left ++ rest))
  | error {fault : ReadError} : Prolonged rest (.error fault) (.error fault)
  | truncated {result : Except ReadError (α × List Char)} :
      Prolonged rest (.error .truncated) result

/-- The second reader does on a text that goes on what the first does without the rest. -/
def Extends {α : Type} (x y : Reader α) : Prop := ∀ text rest, Ends rest →
  Prolonged rest (StateT.run x text) (StateT.run y (text ++ rest))

/-- So it does on texts that start with a certain character. -/
def ExtendsFrom {α : Type} (c : Char) (x y : Reader α) : Prop := ∀ tail rest, Ends rest →
  Prolonged rest (StateT.run x (c :: tail)) (StateT.run y (c :: (tail ++ rest)))

section Combinators
variable {α β : Type} {x y : Reader α} {f g : α → Reader β} {c : Char}

theorem ne_of_end {d : Char} (mark : isEnd c = true) (other : isEnd d = false) : c ≠ d := by
  rintro rfl
  exact absurd mark (by simp [other])

theorem extends_pure (a : α) : Extends (pure a : Reader α) (pure a) := fun _ _ _ => .ok

theorem extends_throw (fault : ReadError) :
    Extends (throw fault : Reader α) (throw fault) := fun _ _ _ => .error

theorem extends_truncated (y : Reader α) : Extends (throw .truncated) y := fun _ _ _ => .truncated

theorem Prolonged.bind {text text' rest : List Char} (ends : Ends rest)
    (first : Prolonged rest (StateT.run x text) (StateT.run y text'))
    (later : ∀ a, Extends (f a) (g a)) :
    Prolonged rest (StateT.run (x >>= f) text) (StateT.run (y >>= g) text') := by
  rw [StateT.run_bind, StateT.run_bind]
  generalize StateT.run x text = before at first ⊢
  generalize StateT.run y text' = after at first ⊢
  cases first with
  | ok => exact later _ _ _ ends
  | error => exact .error
  | truncated => exact .truncated

theorem Extends.bind (first : Extends x y) (later : ∀ a, Extends (f a) (g a)) :
    Extends (x >>= f) (y >>= g) := fun text rest ends =>
  .bind ends (first text rest ends) later

theorem ExtendsFrom.bind (first : ExtendsFrom c x y) (later : ∀ a, Extends (f a) (g a)) :
    ExtendsFrom c (x >>= f) (y >>= g) := fun tail rest ends =>
  .bind ends (first tail rest ends) later

theorem Extends.map (read : Extends x y) (h : α → β) : Extends (h <$> x) (h <$> y) := by
  rw [map_eq_pure_bind, map_eq_pure_bind]
  exact read.bind fun a => extends_pure (h a)

theorem Extends.from (read : Extends x y) (c : Char) : ExtendsFrom c x y := fun tail =>
  read (c :: tail)

theorem extends_advance {x y : Reader α} (later : Extends x y) :
    ExtendsFrom c (advance >>= fun _ => x) (advance >>= fun _ => y) := by
  intro tail rest ends
  rw [(yields_advance c _).run_bind, (yields_advance c _).run_bind]
  exact later tail rest ends

/-- A test for a fault, before reading goes on. -/
theorem extends_unless {p : Prop} [Decidable p] {fault : ReadError} {f g : Unit → Reader β}
    (later : Extends (f ()) (g ())) :
    Extends (if p then throw fault >>= f else f ()) (if p then throw fault >>= g else g ()) := by
  split
  · exact (extends_throw fault).bind fun _ => later
  · exact later

theorem extends_get {f g : List Char → Reader β}
    (each : ∀ text rest, Extends (f text) (g (text ++ rest))) :
    Extends (get >>= f) (get >>= g) := by
  intro text rest ends
  rw [(yields_get _).run_bind, (yields_get _).run_bind]
  exact each text rest text rest ends

/-- A look at the next character, where what may follow a value counts as no character. -/
theorem extends_peek {f g : Option Char → Reader β} (none : Extends (f .none) (g .none))
    (some : ∀ c, ExtendsFrom c (f (.some c)) (g (.some c)))
    (same : ∀ c, isEnd c = true → g (.some c) = g .none) :
    Extends (peek >>= f) (peek >>= g) := by
  intro text rest ends
  rw [(yields_peek _).run_bind, (yields_peek _).run_bind]
  cases text with
  | cons c tail => exact some c tail rest ends
  | nil =>
    have kept : g rest.head? = g .none := by
      cases rest with
      | nil => rfl
      | cons c tail => exact same c ends.isEnd
    have read := none [] rest ends
    rwa [← kept] at read

/-- A look at a character that has to be there. -/
theorem extends_peek_some {f g : Option Char → Reader β} (none : f .none = throw .truncated)
    (some : ∀ c, ExtendsFrom c (f (.some c)) (g (.some c))) :
    Extends (peek >>= f) (peek >>= g) := by
  intro text rest ends
  rw [(yields_peek _).run_bind, (yields_peek _).run_bind]
  cases text with
  | cons c tail => exact some c tail rest ends
  | nil =>
    rw [List.head?_nil, none]
    exact .truncated

theorem extends_upcoming {f g : Char → Reader β} (each : ∀ c, ExtendsFrom c (f c) (g c)) :
    Extends (upcoming >>= f) (upcoming >>= g) := by
  intro text rest ends
  induction text with
  | nil => exact .truncated
  | cons c tail ih =>
    by_cases blank : isBlank c = true
    · have skip (more : List Char) (h : Char → Reader β) : StateT.run (upcoming >>= h) (c :: more) =
          StateT.run (upcoming >>= h) more :=
        skips_upcoming.bind [c] more (List.forall_mem_singleton.mpr blank)
      rw [List.cons_append, skip, skip]
      exact ih
    · have visible : isBlank c = false := Bool.not_eq_true _ ▸ blank
      rw [List.cons_append, (yields_upcoming visible _).run_bind,
        (yields_upcoming visible _).run_bind]
      exact each c tail rest ends

theorem extends_following {f g : Char → Reader β} (each : ∀ c, ExtendsFrom c (f c) (g c)) :
    Extends (following >>= f) (following >>= g) := by
  intro text rest ends
  cases text with
  | nil => exact .truncated
  | cons c tail => exact each c tail rest ends

end Combinators

section Longer
variable {α : Type} {reader : Reader α} {text rest left : List Char} {a : α} {fault : ReadError}

theorem Extends.yields (same : Extends reader reader) (ends : Ends rest)
    (read : Yields reader text a left) : Yields reader (text ++ rest) a (left ++ rest) := by
  have longer := same text rest ends
  rw [read] at longer
  generalize outcome : StateT.run reader (text ++ rest) = result at longer
  cases longer
  exact outcome

theorem Extends.refuses (same : Extends reader reader) (ends : Ends rest)
    (refused : Refuses reader text fault) (more : fault ≠ .truncated) :
    Refuses reader (text ++ rest) fault := by
  have longer := same text rest ends
  rw [refused] at longer
  generalize outcome : StateT.run reader (text ++ rest) = result at longer
  cases longer with
  | error => exact outcome
  | truncated => contradiction

end Longer

section Tokens

theorem extends_mark (c : Char) : Extends (mark c) (mark c) := by
  refine extends_upcoming fun d => ?_
  split
  · exact extends_advance (extends_pure ())
  · exact (extends_throw _).from d

theorem extends_literal (text : List Char) : Extends (literal text) (literal text) := by
  induction text with
  | nil => exact extends_pure ()
  | cons c text ih =>
    refine extends_peek_some rfl fun d => ?_
    dsimp only
    split
    · exact extends_advance ih
    · exact (extends_throw _).from d

theorem extends_digits : Extends digits digits := by
  intro text rest ends
  have some : Digits (text.takeWhile isDigit) := List.all_eq_true.mp List.all_takeWhile
  have stops : Stops (text.dropWhile isDigit) := by
    intro c tail same
    have head := List.head?_dropWhile_not isDigit text
    rwa [same] at head
  have stops' : Stops (text.dropWhile isDigit ++ rest) := by
    cases left : text.dropWhile isDigit with
    | nil => exact stops_of_ends ends
    | cons c tail =>
      rintro _ _ same
      obtain ⟨rfl, -⟩ := List.cons.inj same
      exact stops _ _ left
  have read : Yields digits text _ _ := List.takeWhile_append_dropWhile ▸ yields_digits some stops
  have read' := yields_digits some stops'
  rw [← List.append_assoc, List.takeWhile_append_dropWhile] at read'
  rw [read, read']
  exact .ok

theorem extends_someDigits : Extends someDigits someDigits := by
  refine extends_digits.bind fun cs => ?_
  cases cs with
  | cons c cs => exact extends_pure _
  | nil =>
    rintro (_ | ⟨c, tail⟩) rest -
    · exact .truncated
    · exact .error

theorem extends_wholePart : Extends wholePart wholePart := by
  refine extends_someDigits.bind fun cs => ?_
  split
  · exact extends_throw _
  · exact extends_pure _

theorem extends_exponentPart : Extends exponentPart exponentPart := by
  have digits (sign : Option Char) : Extends
      (do
        let digits ← someDigits
        let magnitude := digits.foldl (fun n c => 10 * n + digitValue c) 0
        return (if sign = some '-' then -magnitude else magnitude : ℤ))
      (do
        let digits ← someDigits
        let magnitude := digits.foldl (fun n c => 10 * n + digitValue c) 0
        return (if sign = some '-' then -magnitude else magnitude : ℤ)) :=
    extends_someDigits.bind fun _ => extends_pure _
  refine extends_peek (digits none) (fun c => ?_) fun c mark => ?_
  · dsimp only
    split
    · exact extends_advance (digits (some c))
    · exact (digits (some c)).from c
  · simp [ne_of_end mark (rfl : isEnd '+' = false), ne_of_end mark (rfl : isEnd '-' = false)]

theorem extends_signPart : Extends signPart signPart := by
  refine extends_peek (extends_pure _) (fun c => ?_) fun c mark => ?_
  · split
    · exact extends_advance (extends_pure _)
    · exact (extends_pure _).from c
  · simp [ne_of_end mark (rfl : isEnd '-' = false)]

theorem extends_fractionPart (s : Significand) : Extends (fractionPart s) (fractionPart s) := by
  refine extends_peek (extends_pure _) (fun c => ?_) fun c mark => ?_
  · split
    · exact extends_advance (extends_someDigits.bind fun _ => extends_pure _)
    · exact (extends_pure _).from c
  · simp [ne_of_end mark (rfl : isEnd '.' = false)]

theorem extends_powerPart (s : Significand) : Extends (powerPart s) (powerPart s) := by
  refine extends_peek (extends_pure _) (fun c => ?_) fun c mark => ?_
  · split
    · exact extends_advance (extends_exponentPart.bind fun _ => extends_pure _)
    · exact (extends_pure _).from c
  · simp [ne_of_end mark (rfl : isEnd 'e' = false), ne_of_end mark (rfl : isEnd 'E' = false)]

theorem extends_conclude (negative whole : Bool) (s : Significand) :
    Extends (conclude negative whole s) (conclude negative whole s) := by
  unfold conclude
  dsimp only
  split
  · split
    · exact extends_pure _
    split
    · exact extends_pure _
    split
    · exact extends_pure _
    · exact extends_throw _
  · split
    · exact extends_pure _
    · exact extends_throw _

theorem extends_number : Extends number number := by
  rw [number_eq]
  exact extends_signPart.bind fun _ => extends_wholePart.bind fun _ =>
    (extends_fractionPart _).bind fun _ => (extends_powerPart _).bind fun _ =>
      extends_conclude _ _ _

theorem extends_passDigits : Extends (do if (← digits).isEmpty then throw .malformed)
    (do if (← digits).isEmpty then throw .malformed) := by
  refine extends_digits.bind fun cs => ?_
  split
  · exact extends_throw _
  · exact extends_pure _

theorem extends_passPower : Extends passPower passPower := by
  refine extends_peek (extends_pure _) (fun c => ?_) fun c mark => ?_
  · dsimp only
    split
    · refine extends_advance (extends_peek extends_passDigits (fun d => ?_) fun d mark => ?_)
      · split
        · exact extends_advance extends_passDigits
        · exact extends_passDigits.from d
      · simp [ne_of_end mark (rfl : isEnd '+' = false), ne_of_end mark (rfl : isEnd '-' = false)]
    · exact (extends_pure _).from c
  · simp [ne_of_end mark (rfl : isEnd 'e' = false), ne_of_end mark (rfl : isEnd 'E' = false)]

theorem extends_passNumber : Extends passNumber passNumber := by
  refine extends_digits.bind fun cs => extends_unless ?_
  refine extends_peek extends_passPower (fun c => ?_) fun c mark => ?_
  · split
    · exact extends_advance (extends_digits.bind fun cs => extends_unless extends_passPower)
    · exact extends_passPower.from c
  · simp [ne_of_end mark (rfl : isEnd '.' = false)]

theorem size_of_hexValue? {c : Char} {n : ℕ} (value : hexValue? c = some n) : c.utf8Size = 1 := by
  have ascii {last : Char} (le : c ≤ last) (small : last.val ≤ 127) : c.utf8Size = 1 :=
    Char.utf8Size_eq_one_iff.mpr (UInt32.le_trans le small)
  unfold hexValue? isDigit at value
  simp only [Bool.and_eq_true, decide_eq_true_eq] at value
  split_ifs at value with digit lower upper
  · exact ascii digit.2 (by decide)
  · exact ascii lower.2 (by decide)
  · exact ascii upper.2 (by decide)

/-- A number of hexadecimal digits has as many bytes as digits. -/
theorem size_of_hexNumber? {cs : List Char} {m n size : ℕ}
    (value : cs.foldlM (fun n c => (hexValue? c).map (16 * n + ·)) m = some n) :
    cs.foldl (fun n c => n + c.utf8Size) size = size + cs.length := by
  induction cs generalizing m size with
  | nil => rfl
  | cons c cs ih =>
    obtain ⟨k, digit, later⟩ := Option.bind_eq_some_iff.mp value
    obtain ⟨d, digit, -⟩ := Option.map_eq_some_iff.mp digit
    rw [List.foldl_cons, size_of_hexValue? digit, ih later, List.length_cons]
    omega

theorem le_size (cs : List Char) (size : ℕ) :
    size ≤ cs.foldl (fun n c => n + c.utf8Size) size := by
  induction cs generalizing size with
  | nil => exact le_rfl
  | cons c cs ih => exact (Nat.le_add_right _ _).trans (ih _)

theorem extends_codeUnit : Extends codeUnit codeUnit := by
  intro text rest ends
  rw [codeUnit, (yields_get _).run_bind, (yields_get _).run_bind]
  dsimp only
  split
  · exact .truncated
  rename_i long
  rw [List.take_append, List.foldl_append,
    if_neg (fun short => long ((le_size _ _).trans_lt short))]
  cases value : hexNumber? (text.take 4) with
  | some n =>
    have length : 4 ≤ text.length := by
      rw [size_of_hexNumber? value, List.length_take] at long
      omega
    rw [Nat.sub_eq_zero_of_le length, List.take_zero, List.append_nil, value,
      List.drop_append_of_le_length length]
    exact .ok
  | none =>
    have value' : hexNumber? (text.take 4 ++ rest.take (4 - text.length)) = none := by
      unfold hexNumber? at value ⊢
      rw [List.foldlM_append, value]
      rfl
    rw [value']
    exact .error

theorem extends_exactly (c : Char) : Extends (exactly c) (exactly c) := by
  refine extends_following fun d => ?_
  split
  · exact extends_advance (extends_pure ())
  · exact (extends_throw _).from d

theorem extends_codePoint : Extends codePoint codePoint := by
  refine extends_codeUnit.bind fun high => extends_unless ?_
  split
  · exact extends_pure _
  · exact (extends_exactly _).bind fun _ => (extends_exactly _).bind fun _ =>
      extends_codeUnit.bind fun low => extends_unless (extends_pure _)

theorem extends_stringStep {wide : Reader Char} (reads : Extends wide wide) :
    Extends (stringStep wide) (stringStep wide) := by
  refine extends_following fun c => extends_advance ?_
  split
  · exact extends_pure _
  refine extends_unless ?_
  split
  · exact extends_pure _
  refine extends_following fun e => extends_advance ?_
  split
  · exact reads.bind fun _ => extends_pure _
  split
  · exact extends_pure _
  · exact extends_throw _

theorem extends_stringLoop {wide : Reader Char} (reads : Extends wide wide)
    {fuel fuel' : List Char} (more : fuel.length ≤ fuel'.length) (read : List Char) :
    Extends (stringLoop wide fuel read) (stringLoop wide fuel' read) := by
  induction fuel generalizing fuel' read with
  | nil => exact extends_truncated _
  | cons c fuel ih =>
    obtain ⟨c', fuel', rfl⟩ := List.exists_cons_of_length_pos (Nat.zero_lt_of_lt more)
    refine (extends_stringStep reads).bind fun o => ?_
    cases o with
    | none => exact extends_pure _
    | some d => exact ih (Nat.le_of_succ_le_succ more) (d :: read)

theorem extends_string : Extends string string :=
  extends_get fun text rest => extends_stringLoop extends_codePoint (by simp) []

theorem extends_passString : Extends passString passString := by
  have reads : Extends (codeUnit >>= fun _ => pure ' ') (codeUnit >>= fun _ => pure ' ') :=
    extends_codeUnit.bind fun _ => extends_pure _
  exact extends_get fun text rest => (extends_stringLoop reads (by simp) []).bind
    fun _ => extends_pure _

end Tokens

section Values

theorem extends_passScalar (c : Char) : ExtendsFrom c (passScalar c) (passScalar c) := by
  unfold passScalar
  split
  · exact (extends_literal _).from _
  · exact (extends_literal _).from _
  · exact (extends_literal _).from _
  · exact extends_advance extends_passString
  · exact extends_advance extends_passNumber
  · split
    · exact extends_passNumber.from c
    · exact (extends_throw _).from c

theorem extends_close (brackets : List Bracket) : Extends (close brackets) (close brackets) := by
  induction brackets with
  | nil => exact extends_pure _
  | cons b outer ih =>
    refine extends_upcoming fun c => ?_
    split
    · exact extends_advance (extends_pure _)
    split
    · exact extends_advance ih
    · exact (extends_throw _).from c

theorem extends_enter (b : Bracket) (outer : List Bracket) :
    Extends (enter b outer) (enter b outer) := by
  refine extends_upcoming fun c => ?_
  split
  · exact extends_advance (extends_close outer)
  · exact (extends_pure _).from c

theorem extends_passName : Extends passName passName :=
  (extends_mark _).bind fun _ => extends_passString.bind fun _ => extends_mark _

theorem extends_passLoop {fuel fuel' : List Char} (more : fuel.length ≤ fuel'.length)
    (brackets : List Bracket) : Extends (passLoop fuel brackets) (passLoop fuel' brackets) := by
  induction fuel generalizing fuel' brackets with
  | nil => exact extends_truncated _
  | cons d fuel ih =>
    obtain ⟨d', fuel', rfl⟩ := List.exists_cons_of_length_pos (Nat.zero_lt_of_lt more)
    have onwards (still : List Bracket) : Extends (proceed fuel still) (proceed fuel' still) := by
      have later := ih (Nat.le_of_succ_le_succ more)
      match still with
      | [] => exact extends_pure _
      | .array :: outer => exact later _
      | .object :: outer => exact extends_passName.bind fun _ => later _
    rw [passLoop_cons, passLoop_cons]
    refine extends_upcoming fun c => ?_
    split
    · exact extends_advance ((extends_enter _ _).bind onwards)
    · exact (extends_passScalar c).bind fun _ => (extends_close brackets).bind onwards

theorem extends_passValue : Extends passValue passValue :=
  extends_get fun text rest => extends_passLoop (by simp) []

theorem extends_refuse {α : Type} : Extends (refuse : Reader α) refuse := by
  have refused : Extends (throw .mistyped : Reader α) (throw .mistyped) := extends_throw _
  refine extends_upcoming fun c => ?_
  dsimp only
  split
  · exact ((extends_literal _).bind fun _ => refused).from _
  · exact ((extends_literal _).bind fun _ => refused).from _
  · exact ((extends_literal _).bind fun _ => refused).from _
  · exact extends_advance (extends_string.bind fun _ => refused)
  · exact refused.from _
  · exact refused.from _
  · split
    · exact (extends_number.bind fun _ => refused).from c
    · exact (extends_throw _).from c

theorem extends_wantedNumber : Extends wantedNumber wantedNumber := by
  refine extends_upcoming fun c => ?_
  split
  · exact extends_number.from c
  · exact extends_refuse.from c

theorem extends_wantedSingle : Extends wantedSingle wantedSingle :=
  extends_wantedNumber.bind fun _ => extends_pure _

theorem extends_wantedDouble : Extends wantedDouble wantedDouble :=
  extends_wantedNumber.bind fun _ => extends_pure _

theorem extends_wantedNatural (limit : ℕ) :
    Extends (wantedNatural limit) (wantedNatural limit) := by
  refine extends_wantedNumber.bind fun v => ?_
  split
  · split
    · exact extends_pure _
    · exact extends_throw _
  · exact extends_throw _

theorem extends_wantedBool : Extends wantedBool wantedBool := by
  refine extends_upcoming fun c => ?_
  split
  · exact ((extends_literal _).bind fun _ => extends_pure _).from _
  · exact ((extends_literal _).bind fun _ => extends_pure _).from _
  · exact extends_refuse.from _

end Values

section Records
variable {σ : Type}

theorem extends_hasElement (first : Bool) :
    Extends (hasElement first) (hasElement first) := by
  refine extends_upcoming fun c => ?_
  split
  · exact (extends_pure _).from c
  split
  · exact (extends_pure _).from c
  dsimp only
  split
  · exact (extends_throw _).from c
  · refine extends_advance (extends_upcoming fun d => ?_)
    split
    · exact (extends_throw _).from d
    · exact (extends_pure _).from d

theorem extends_hasMember (first : Bool) : Extends (hasMember first) (hasMember first) := by
  refine extends_upcoming fun c => ?_
  split
  · exact (extends_pure _).from c
  dsimp only
  split
  · exact ((extends_mark _).bind fun _ => extends_pure _).from c
  · exact ((extends_mark _).bind fun _ => (extends_mark _).bind fun _ => extends_pure _).from c

theorem extends_elements {fields : List (FieldReader σ)}
    (each : ∀ field ∈ fields, Extends field.read field.read) (first : Bool) (s : σ) :
    Extends (elements fields first s) (elements fields first s) := by
  induction fields generalizing first s with
  | nil => exact extends_pure _
  | cons field fields ih =>
    rw [List.forall_mem_cons] at each
    refine (extends_hasElement first).bind fun more => ?_
    split
    · exact each.1.bind fun assign => ih each.2 false _
    · exact extends_pure _

theorem extends_members {fields : List (FieldReader σ)}
    (each : ∀ field ∈ fields, Extends field.read field.read) {fuel fuel' : List Char}
    (more : fuel.length ≤ fuel'.length) (seen : List String) (first : Bool) (s : σ) :
    Extends (members fields fuel seen first s) (members fields fuel' seen first s) := by
  induction fuel generalizing fuel' seen first s with
  | nil => exact extends_truncated _
  | cons d fuel ih =>
    obtain ⟨d', fuel', rfl⟩ := List.exists_cons_of_length_pos (Nat.zero_lt_of_lt more)
    have later := ih (Nat.le_of_succ_le_succ more)
    refine (extends_hasMember first).bind fun more => ?_
    split
    · refine extends_string.bind fun name => ?_
      dsimp only
      split
      · rename_i field found
        refine extends_unless ((extends_mark ':').bind fun _ => ?_)
        exact (each field (List.mem_of_find?_eq_some found)).bind fun _ => later _ _ _
      · exact (extends_mark ':').bind fun _ => extends_passValue.bind fun _ => later _ _ _
    · exact extends_pure _

theorem extends_record {fields : List (FieldReader σ)}
    (each : ∀ field ∈ fields, Extends field.read field.read) (initial : σ) :
    Extends (record fields initial) (record fields initial) := by
  refine extends_upcoming fun c => ?_
  split
  · exact extends_advance ((extends_elements each true initial).bind fun _ =>
      (extends_mark _).bind fun _ => extends_pure _)
  · exact extends_advance (extends_get fun text rest =>
      (extends_members each (by simp) [] true initial).bind fun _ =>
        (extends_mark _).bind fun _ => extends_pure _)
  · exact extends_refuse.from _

mutual

/-- What follows a value has no part in reading it. -/
theorem Kind.extends_reader : {α : Type} → (kind : Kind α) → Extends kind.reader kind.reader
  | _, .bool => extends_wantedBool
  | _, .natural limit => extends_wantedNatural limit
  | _, .single => extends_wantedSingle
  | _, .double => extends_wantedDouble
  | _, .record fields initial => extends_record fields.extends_readers initial

theorem Fields.extends_readers : {σ : Type} → (fields : Fields σ) →
    ∀ field ∈ fields.readers, Extends field.read field.read
  | _, .none => List.forall_mem_nil _
  | _, .field _ kind _ set rest =>
    List.forall_mem_cons.mpr ⟨kind.extends_reader.map set, rest.extends_readers⟩

end

end Records

end RealtimeAudio.Json
