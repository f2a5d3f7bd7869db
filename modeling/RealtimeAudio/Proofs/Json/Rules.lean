import Mathlib.Algebra.Order.Ring.Rat
import Mathlib.Data.List.Perm.Basic
import RealtimeAudio.Json.Codec
import RealtimeAudio.Proofs.Json.Grammar

/-! What a library that reads JSON promises of a record, and what follows for members in any order.
What is read depends on the members with known names alone. -/
namespace RealtimeAudio.Json

section Rules
variable {σ β : Type}

/-- There is a field of this name, which holds such a value and takes it so. -/
inductive Fields.Has (name : String) (kind : Kind β) (set : β → σ → σ) : Fields σ → Prop
  | here {get : σ → β} {rest : Fields σ} : Has name kind set (.field name kind get set rest)
  | later {γ : Type} {other : String} {kind' : Kind γ} {get : σ → γ} {set' : γ → σ → σ}
      {rest : Fields σ} : Has name kind set rest →
      Has name kind set (.field other kind' get set' rest)

theorem Fields.Has.mem_names {name : String} {kind : Kind β} {set : β → σ → σ} {fields : Fields σ}
    (has : fields.Has name kind set) : name ∈ fields.names := by
  induction has with
  | here => exact List.mem_cons_self
  | later _ ih => exact List.mem_cons_of_mem _ ih

/-- What the members of an object make of a record, one after another. A member of an unknown name
changes nothing, and a name that was `seen` already is refused without a look at its value. -/
inductive Visits [Codec] (fields : Fields σ) :
    (seen : List String) → σ → List (String × List Char) → Except ReadError σ → Prop
  | done {seen : List String} {s : σ} : Visits fields seen s [] (.ok s)
  | unknown {seen : List String} {s : σ} {name : String} {value : List Char}
      {ms : List (String × List Char)} {result : Except ReadError σ} : name ∉ fields.names →
      Visits fields seen s ms result → Visits fields seen s ((name, value) :: ms) result
  | given {seen : List String} {s : σ} {name : String} {value : List Char} {γ : Type}
      {kind : Kind γ} {set : γ → σ → σ} {b : γ} {ms : List (String × List Char)}
      {result : Except ReadError σ} : fields.Has name kind set → name ∉ seen →
      Codec.read kind value = .ok b → Visits fields (name :: seen) (set b s) ms result →
      Visits fields seen s ((name, value) :: ms) result
  | refused {seen : List String} {s : σ} {name : String} {value : List Char} {γ : Type}
      {kind : Kind γ} {set : γ → σ → σ} {ms : List (String × List Char)} :
      fields.Has name kind set → name ∉ seen → Codec.read kind value = .error .mistyped →
      Visits fields seen s ((name, value) :: ms) (.error .mistyped)
  | repeated {seen : List String} {s : σ} {name : String} {value : List Char}
      {ms : List (String × List Char)} : name ∈ fields.names → name ∈ seen →
      Visits fields seen s ((name, value) :: ms) (.error .mistyped)

/-- The size of the number that a numeral stands for. -/
def Numeral.magnitude (n : Numeral) : ℚ :=
  Nat.ofDigitChars 10 (n.whole ++ n.fraction) 0 * 10 ^ (n.power.getD 0 - n.fraction.length)

/-- What a library promises: that it reads the values of plain types, numbers up to a size that
binary64 holds, and that it reads a record from the members of an object in turn, starting with
what the record is initially. -/
structure Codec.Rules [Codec] : Prop where
  bool : ∀ b : Bool, Codec.read .bool (toString b).toList = .ok b
  natural : ∀ {limit n : ℕ}, n ≤ limit → n < UInt64.size →
    Codec.read (.natural limit) (toString n).toList = .ok n
  single : ∀ {n : Numeral} {text : List Char}, n.Sound → n.SpelledBy text →
    n.magnitude ≤ 10 ^ 300 → ∃ x, Codec.read .single text = .ok x
  record : ∀ {σ : Type} {fields : Fields σ} {initial : σ} {ms : List (String × List Char)}
    {text : List Char} {result : Except ReadError σ}, fields.names.Nodup → SpellsDocument ms text →
    Visits fields [] initial ms result → Codec.read (.record fields initial) text = result

end Rules

/-- What members give to a record that knows some names, in order, or `none` if they spoil it. Up to
there every known member is well-typed: its value spells something. They spoil a record when a
known name stands a second time, whatever its value, or when a value is itself spoilt. -/
inductive Gives {α : Type} (known : List String) (spells : α → String → List Char → Prop)
    (spoils : String → List Char → Prop) :
    (seen : List String) → List (String × List Char) → Option (List α) → Prop
  | nil {seen : List String} : Gives known spells spoils seen [] (some [])
  | other {seen : List String} {name : String} {value : List Char}
      {ms : List (String × List Char)} {given : Option (List α)} : name ∉ known →
      Gives known spells spoils seen ms given →
      Gives known spells spoils seen ((name, value) :: ms) given
  | known {seen : List String} {name : String} {value : List Char} {a : α}
      {ms : List (String × List Char)} {given : Option (List α)} : name ∈ known → name ∉ seen →
      spells a name value → Gives known spells spoils (name :: seen) ms given →
      Gives known spells spoils seen ((name, value) :: ms) (given.map (a :: ·))
  | again {seen : List String} {name : String} {value : List Char}
      {ms : List (String × List Char)} : name ∈ known → name ∈ seen →
      Gives known spells spoils seen ((name, value) :: ms) none
  | spoilt {seen : List String} {name : String} {value : List Char}
      {ms : List (String × List Char)} : name ∈ known → name ∉ seen → spoils name value →
      Gives known spells spoils seen ((name, value) :: ms) none

/-- The members with known names. -/
def knownMembers (known : List String) (ms : List (String × List Char)) :
    List (String × List Char) := ms.filter (·.1 ∈ known)

section Giving
variable {α : Type} {known seen : List String} {spells : α → String → List Char → Prop}
  {spoils : String → List Char → Prop} {ms front back : List (String × List Char)}
  {given : List α} {name : String} {value : List Char}

theorem knownMembers_cons (member : name ∈ known) :
    knownMembers known ((name, value) :: ms) = (name, value) :: knownMembers known ms :=
  List.filter_cons_of_pos (by simpa using member)

theorem knownMembers_cons_other (other : name ∉ known) :
    knownMembers known ((name, value) :: ms) = knownMembers known ms :=
  List.filter_cons_of_neg (by simpa using other)

/-- Members give something if each that is known spells a part of it and none stands twice. -/
structure GivesEach (known seen : List String) (spells : α → String → List Char → Prop)
    (ms : List (String × List Char)) (given : List α) : Prop where
  each : List.Forall₂ (fun m a => spells a m.1 m.2) (knownMembers known ms) given
  distinct : ((knownMembers known ms).map Prod.fst).Nodup
  fresh : ∀ m ∈ knownMembers known ms, m.1 ∉ seen

theorem Gives.each {result : Option (List α)} (gives : Gives known spells spoils seen ms result)
    (some : result = .some given) : GivesEach known seen spells ms given := by
  induction gives generalizing given with
  | nil =>
    cases some
    exact ⟨.nil, List.nodup_nil, List.forall_mem_nil _⟩
  | other other _ ih =>
    obtain ⟨each, distinct, fresh⟩ := ih some
    rw [← knownMembers_cons_other other] at each distinct fresh
    exact ⟨each, distinct, fresh⟩
  | known member unseen spelled _ ih =>
    obtain ⟨later, rfl, rfl⟩ := Option.map_eq_some_iff.mp some
    obtain ⟨each, distinct, fresh⟩ := ih rfl
    refine ⟨?_, ?_, ?_⟩
    · rw [knownMembers_cons member]
      exact .cons spelled each
    · rw [knownMembers_cons member, List.map_cons, List.nodup_cons]
      refine ⟨fun again => ?_, distinct⟩
      obtain ⟨m, listed, same⟩ := List.mem_map.mp again
      exact fresh m listed (same ▸ List.mem_cons_self)
    · rw [knownMembers_cons member, List.forall_mem_cons]
      exact ⟨unseen, fun m listed seen => fresh m listed (List.mem_cons_of_mem _ seen)⟩
  | again => cases some
  | spoilt => cases some

theorem exists_of_forall₂ {β γ : Type} {R : β → γ → Prop} {bs : List β} {cs : List γ}
    (related : List.Forall₂ R bs cs) {c : γ} (listed : c ∈ cs) : ∃ b ∈ bs, R b c := by
  induction related with
  | nil => cases listed
  | cons first _ ih =>
    rcases List.mem_cons.mp listed with rfl | later
    · exact ⟨_, List.mem_cons_self, first⟩
    · obtain ⟨b, member, held⟩ := ih later
      exact ⟨b, List.mem_cons_of_mem _ member, held⟩

theorem GivesEach.names {nameOf : α → String} (gives : GivesEach known seen spells ms given)
    (named : ∀ {a name value}, spells a name value → name = nameOf a) :
    (given.map nameOf).Nodup := by
  have same : List.Forall₂ (fun m a => m.1 = nameOf a) (knownMembers known ms) given :=
    gives.each.imp fun _ _ => named
  have names := List.forall₂_eq_eq_eq ▸
    List.forall₂_map_left_iff.mpr (List.forall₂_map_right_iff.mpr same)
  exact names ▸ gives.distinct

theorem GivesEach.gives (gives : GivesEach known seen spells ms given) :
    Gives known spells spoils seen ms (some given) := by
  induction ms generalizing seen given with
  | nil =>
    obtain ⟨each, -, -⟩ := gives
    cases each
    exact .nil
  | cons m ms ih =>
    obtain ⟨each, distinct, fresh⟩ := gives
    obtain ⟨name, value⟩ := m
    by_cases member : name ∈ known
    · rw [knownMembers_cons member] at each distinct fresh
      rw [List.map_cons, List.nodup_cons] at distinct
      rw [List.forall_mem_cons] at fresh
      cases each with
      | cons spelled each =>
        refine .known member fresh.1 spelled (ih ⟨each, distinct.2, ?_⟩)
        intro other listed seen
        rcases List.mem_cons.mp seen with same | earlier
        · exact distinct.1 (List.mem_map.mpr ⟨other, listed, same⟩)
        · exact fresh.2 other listed earlier
    · rw [knownMembers_cons_other member] at each distinct fresh
      exact .other member (ih ⟨each, distinct, fresh⟩)

/-- The known members may stand in any order, and any others between them. -/
theorem Gives.perm {other : List (String × List Char)}
    (gives : Gives known spells spoils [] ms (some given))
    (permuted : (knownMembers known other).Perm (knownMembers known ms)) :
    ∃ given', Gives known spells spoils [] other (some given') ∧ given'.Perm given := by
  obtain ⟨each, distinct, -⟩ := gives.each rfl
  obtain ⟨given', each', same⟩ := List.perm_comp_forall₂ permuted each
  refine ⟨given', GivesEach.gives ⟨each', ?_, fun _ _ => List.not_mem_nil⟩, same⟩
  exact (permuted.map Prod.fst).nodup_iff.mpr distinct

/-- A member with a name that stands before it spoils what is given, whatever its value. -/
theorem Gives.repeated {result : Option (List α)}
    (gives : Gives known spells spoils seen (front ++ back) result) (some : result = .some given)
    (member : name ∈ known) (before : name ∈ seen ∨ name ∈ front.map Prod.fst) :
    Gives known spells spoils seen (front ++ (name, value) :: back) none := by
  induction front generalizing seen result given with
  | nil => exact .again member (before.resolve_right List.not_mem_nil)
  | cons m front ih =>
    cases gives with
    | other other later =>
      refine .other other (ih later some (before.imp_right fun listed => ?_))
      rcases List.mem_cons.mp listed with rfl | listed
      · contradiction
      · exact listed
    | known listed unseen spelled later =>
      obtain ⟨given, rfl, -⟩ := Option.map_eq_some_iff.mp some
      refine .known listed unseen spelled (ih later rfl ?_)
      rcases before with earlier | listed
      · exact .inl (List.mem_cons_of_mem _ earlier)
      · exact (List.mem_cons.mp listed).imp_left fun same => List.mem_cons.mpr (.inl same)
    | again => cases some
    | spoilt => cases some

/-- A copy of a member spoils what is given, wherever it stands. -/
theorem Gives.copied (gives : Gives known spells spoils [] (front ++ back) (some given))
    (member : name ∈ known) (copied : (name, value) ∈ front ++ back) :
    Gives known spells spoils [] (front ++ (name, value) :: back) none := by
  rcases List.mem_append.mp copied with before | after
  · exact gives.repeated rfl member (.inr (List.mem_map_of_mem before))
  · obtain ⟨between, rest, rfl⟩ := List.append_of_mem after
    have moved : (front ++ (name, value) :: between ++ rest).Perm
        (front ++ (between ++ (name, value) :: rest)) := by
      rw [List.append_assoc]
      exact List.perm_middle.symm.append_left front
    obtain ⟨given', gives', -⟩ := gives.perm (moved.filter _)
    rw [← List.cons_append, ← List.append_assoc]
    exact gives'.repeated rfl member (.inr (by simp))

end Giving


section Visiting
variable [Codec] {σ α : Type} {fields : Fields σ} {spells : α → String → List Char → Prop}
  {spoils : String → List Char → Prop} {assign : α → σ → σ} {ms : List (String × List Char)}

/-- What is spelled for a field is read and assigned, and what is spoilt is refused. -/
structure Sound (fields : Fields σ) (spells : α → String → List Char → Prop)
    (spoils : String → List Char → Prop) (assign : α → σ → σ) : Prop where
  reads : ∀ {a : α} {name : String} {value : List Char}, spells a name value →
    ∃ (β : Type) (kind : Kind β) (set : β → σ → σ) (b : β), fields.Has name kind set ∧
      Codec.read kind value = .ok b ∧ set b = assign a
  refuses : ∀ {name : String} {value : List Char}, spoils name value →
    ∃ (β : Type) (kind : Kind β) (set : β → σ → σ), fields.Has name kind set ∧
      Codec.read kind value = .error .mistyped

/-- What becomes of a record that something is given to. -/
def merged (assign : α → σ → σ) (s : σ) : Option (List α) → Except ReadError σ
  | some given => .ok (given.foldl (fun s a => assign a s) s)
  | none => .error .mistyped

/-- Members come to what they give to the record. -/
theorem Gives.visits {seen : List String} {given : Option (List α)}
    (gives : Gives fields.names spells spoils seen ms given)
    (sound : Sound fields spells spoils assign) (s : σ) :
    Visits fields seen s ms (merged assign s given) := by
  induction gives generalizing s with
  | nil => exact .done
  | other unknown _ ih => exact .unknown unknown (ih s)
  | @known _ _ _ a _ later _ fresh spelled _ ih =>
    obtain ⟨β, kind, set, b, has, read, same⟩ := sound.reads spelled
    have merges : merged assign s (later.map (a :: ·)) = merged assign (set b s) later := by
      rw [same]
      cases later <;> rfl
    rw [merges]
    exact .given has fresh read (ih _)
  | again member repeated => exact .repeated member repeated
  | spoilt _ fresh spoils =>
    obtain ⟨β, kind, set, has, read⟩ := sound.refuses spoils
    exact .refused has fresh read

/-- A document comes to what its members give. -/
theorem Codec.Rules.read_record (rules : Codec.Rules) (distinct : fields.names.Nodup)
    (sound : Sound fields spells spoils assign) {text : List Char}
    (document : SpellsDocument ms text) {given : Option (List α)}
    (gives : Gives fields.names spells spoils [] ms given) (initial : σ) :
    Codec.read (.record fields initial) text = merged assign initial given :=
  rules.record distinct document (gives.visits sound initial)

end Visiting

end RealtimeAudio.Json
