import RealtimeAudio.Proofs.Json.Digits

/-! Blanks and strings. Blanks may stand in front of every token. A character of a string has many
spellings, and a string is read the same whichever of them are used. -/
namespace RealtimeAudio.Json
open Reader

section Blanks

/-- A reader that starts at the next token. -/
def Skips {α : Type} (reader : Reader α) : Prop :=
  ∀ blanks text, Blanks blanks → StateT.run reader (blanks ++ text) = StateT.run reader text

variable {α β : Type} {x : Reader α} {f : α → Reader β} {a : α} {blanks text rest : List Char}
  {fault : ReadError}

theorem Skips.bind (skips : Skips x) : Skips (x >>= f) := by
  intro blanks text blank
  rw [StateT.run_bind, StateT.run_bind, skips blanks text blank]

theorem Skips.map (skips : Skips x) (g : α → β) : Skips (g <$> x) := by
  intro blanks text blank
  rw [StateT.run_map, StateT.run_map, skips blanks text blank]

theorem Skips.yields (skips : Skips x) (blank : Blanks blanks) (read : Yields x text a rest) :
    Yields x (blanks ++ text) a rest := (skips blanks text blank).trans read

theorem Skips.refuses (skips : Skips x) (blank : Blanks blanks) (refused : Refuses x text fault) :
    Refuses x (blanks ++ text) fault := (skips blanks text blank).trans refused

theorem skips_upcoming : Skips upcoming := by
  intro blanks text blank
  have left : (blanks ++ text).dropWhile isBlank = text.dropWhile isBlank :=
    List.dropWhile_append_of_pos blank
  have drops (s : List Char) : StateT.run (modify (List.dropWhile isBlank) : Reader Unit) s =
      .ok ((), s.dropWhile isBlank) := rfl
  unfold upcoming
  rw [StateT.run_bind, StateT.run_bind, drops, drops, left]

theorem yields_upcoming {c : Char} (visible : isBlank c = false) (rest : List Char) :
    Yields upcoming (c :: rest) c (c :: rest) := by
  have kept : (c :: rest).dropWhile isBlank = c :: rest :=
    List.dropWhile_cons_of_neg (by simp [visible])
  refine Yields.bind (a := ()) (t := c :: rest) ?_ ((yields_peek _).bind (yields_pure _ _))
  exact congrArg (fun text => Except.ok ((), text)) kept

theorem skips_mark (c : Char) : Skips (mark c) := skips_upcoming.bind

theorem yields_mark {c : Char} (visible : isBlank c = false) :
    Yields (mark c) (c :: rest) () rest := by
  refine (yields_upcoming visible rest).bind ?_
  rw [if_pos rfl]
  exact yields_advance _ _

end Blanks

section String
variable {rest text other : List Char}

theorem yields_following (c : Char) (rest : List Char) :
    Yields following (c :: rest) c (c :: rest) := rfl

theorem yields_exactly (c : Char) : Yields (exactly c) (c :: rest) () rest := by
  refine (yields_following c rest).bind ?_
  rw [if_pos rfl]
  exact yields_advance _ _

theorem yields_codeUnit {n : ℕ} (spelled : SpellsUnit text n) :
    Yields codeUnit (text ++ rest) n rest := by
  obtain ⟨length, value⟩ := spelled
  have taken : (text ++ rest).take 4 = text := by rw [← length, List.take_left]
  have left : (text ++ rest).drop 4 = rest := by rw [← length, List.drop_left]
  have long : ¬ text.foldl (fun n c => n + c.utf8Size) 0 < 4 := by
    obtain ⟨a, b, c, d, rfl⟩ : ∃ a b c d, text = [a, b, c, d] := by
      match text, length with
      | [a, b, c, d], _ => exact ⟨a, b, c, d, rfl⟩
    have := a.utf8Size_pos
    have := b.utf8Size_pos
    have := c.utf8Size_pos
    have := d.utf8Size_pos
    simp only [List.foldl_cons, List.foldl_nil]
    omega
  refine (yields_get _).bind ?_
  dsimp only
  rw [taken, left, if_neg long, value]
  rfl

theorem yields_codePoint {c : Char} (spelled : SpellsPoint text c) :
    Yields codePoint (text ++ rest) c rest := by
  cases spelled with
  | unit spelled alone =>
    refine (yields_codeUnit spelled).bind ?_
    rw [if_neg (by simp; omega), if_pos (by simp; omega)]
    exact yields_pure _ _
  | pair spelled spelled' high low =>
    rw [List.append_assoc, List.cons_append, List.cons_append]
    refine (yields_codeUnit spelled).bind ?_
    rw [if_neg (by simp; omega), if_neg (by simp; omega)]
    refine (yields_exactly _).bind ((yields_exactly _).bind ((yields_codeUnit spelled').bind ?_))
    rw [if_neg (by simp; omega)]
    exact yields_pure _ _

variable {wide : Reader Char} {spells : List Char → Char → Prop}

theorem yields_stringStep {c : Char}
    (reads : ∀ text c rest, spells text c → Yields wide (text ++ rest) c rest)
    (spelled : SpellsChar spells text c) :
    Yields (stringStep wide) (text ++ rest) (some c) rest := by
  cases spelled with
  | plain quote escape control =>
    refine (yields_following _ _).bind ((yields_advance _ _).bind ?_)
    rw [if_neg quote, if_neg (not_lt.mpr control), if_pos escape]
    exact yields_pure _ _
  | @letter e _ value =>
    have narrow : e ≠ 'u' := by
      rintro rfl
      cases value
    refine (yields_following _ _).bind ((yields_advance _ _).bind ?_)
    refine (yields_following _ _).bind ((yields_advance _ _).bind ?_)
    rw [if_neg narrow, value]
    exact yields_pure _ _
  | wide spelled =>
    refine (yields_following _ _).bind ((yields_advance _ _).bind ?_)
    refine (yields_following _ _).bind ((yields_advance _ _).bind ?_)
    exact (reads _ _ _ spelled).bind (yields_pure _ _)

theorem yields_stringStep_quote (wide : Reader Char) :
    Yields (stringStep wide) ('"' :: rest) none rest := rfl

theorem SpellsChar.length_pos {c : Char} (spelled : SpellsChar spells text c) :
    0 < text.length := by
  cases spelled <;> simp

theorem yields_stringLoop {cs fuel read : List Char}
    (reads : ∀ text c rest, spells text c → Yields wide (text ++ rest) c rest)
    (spelled : SpellsString spells text cs) (enough : text.length < fuel.length) :
    Yields (stringLoop wide fuel read) (text ++ '"' :: rest) (read.reverse ++ cs) rest := by
  induction spelled generalizing fuel read with
  | nil =>
    cases fuel with
    | nil => cases enough
    | cons _ fuel =>
      rw [List.append_nil]
      exact (yields_stringStep_quote wide).bind (yields_pure _ _)
  | @cons _ _ c _ first _ ih =>
    cases fuel with
    | nil => cases enough
    | cons _ fuel =>
      have some := first.length_pos
      rw [List.length_append, List.length_cons] at enough
      rw [List.append_assoc]
      refine (yields_stringStep reads first).bind ?_
      have later := @ih fuel (c :: read) (by omega)
      rwa [List.reverse_cons, List.append_assoc] at later

theorem yields_string {cs : List Char} (spelled : SpellsString SpellsPoint text cs) :
    Yields string (text ++ '"' :: rest) cs rest :=
  (yields_get _).bind (yields_stringLoop (fun _ _ _ => yields_codePoint) spelled (by simp))

theorem yields_passString {cs : List Char} (spelled : SpellsString SpellsAny text cs) :
    Yields passString (text ++ '"' :: rest) () rest := by
  have reads (text : List Char) (c : Char) (rest : List Char) (unit : SpellsAny text c) :
      Yields (codeUnit >>= fun _ => pure ' ') (text ++ rest) c rest := by
    obtain ⟨⟨n, spelled⟩, rfl⟩ := unit
    exact (yields_codeUnit spelled).bind (yields_pure _ _)
  exact (yields_get _).bind ((yields_stringLoop reads spelled (by simp)).bind (yields_pure _ _))

end String

end RealtimeAudio.Json
