import RealtimeAudio.Proofs.Binary.Sum
import RealtimeAudio.Proofs.Single.Division
import RealtimeAudio.Proofs.Single.Magnitude
import RealtimeAudio.Proofs.Single.Narrowing

/-! Arithmetic on binary32 numbers. On finite numbers an operation gives the exact result rounded,
unless that is too large. What is not a number stays so under every operation, and an infinite
value leaves by none but to another or to what is no number. -/
namespace RealtimeAudio.Single
open Binary
open Float.Model (Format UnpackedFloat)
open Float.Model.UnpackedFloat

/-- Neither infinite nor undefined. -/
def Finite (x : Float32) : Prop := x.toModel.unpack.isFinite = true

instance : DecidablePred Finite :=
  fun x => inferInstanceAs (Decidable (x.toModel.unpack.isFinite = true))

/-- Of either sign. -/
def Infinite (x : Float32) : Prop := x.isInf = true

instance : DecidablePred Infinite := fun x => inferInstanceAs (Decidable (x.isInf = true))

/-- The real number that a finite value stands for. -/
noncomputable def toReal (x : Float32) : ℝ := real x.toModel.unpack

section Operations

theorem canonical_unpack (x : Float32) : Canonical .binary32 x.toModel.unpack :=
  canonical_of_storable (storable_unpack _ (by decide))

theorem unpack_add (x y : Float32) : (x + y).toModel.unpack =
    stored .binary32 (UnpackedFloat.add .binary32 x.toModel.unpack y.toModel.unpack) :=
  unpack_pack (canonical_add (canonical_unpack x) (canonical_unpack y))

theorem unpack_neg (x : Float32) : (-x).toModel.unpack = x.toModel.unpack.neg := by
  have storable : Storable .binary32 x.toModel.unpack.neg :=
    storable_neg (storable_unpack _ (by decide))
  have packed : (-x).toModel.unpack =
      unpack .binary32 (pack .binary32 x.toModel.unpack.neg) := rfl
  rw [packed, unpack_pack (canonical_of_storable storable), stored_eq storable]

/-- Subtraction adds the other sign. -/
theorem sub_eq (x y : Float32) : x - y = x + -y := by
  have difference : x - y = Float32.ofModel (.pack (UnpackedFloat.sub .binary32
    x.toModel.unpack y.toModel.unpack)) := rfl
  have sum : x + -y = Float32.ofModel (.pack (UnpackedFloat.add .binary32
    x.toModel.unpack (-y).toModel.unpack)) := rfl
  rw [difference, sum, unpack_neg, Binary.sub_eq]

theorem unpack_mul (x y : Float32) : (x * y).toModel.unpack =
    stored .binary32 (UnpackedFloat.mul .binary32 x.toModel.unpack y.toModel.unpack) :=
  unpack_pack (canonical_mul (by decide) (canonical_unpack x) (canonical_unpack y))

end Operations

section Special
variable {x y : Float32}

theorem number_iff : Number x ↔ x.toModel.unpack ≠ .notANumber := by
  change x.toModel.unpack.isNaN = false ↔ _
  cases x.toModel.unpack <;> simp [UnpackedFloat.isNaN]

theorem not_number_iff : ¬Number x ↔ x.toModel.unpack = .notANumber :=
  number_iff.not.trans not_not

theorem infinite_iff : Infinite x ↔ ∃ s, x.toModel.unpack = .infinity s := by
  change x.toModel.unpack.isInf = true ↔ _
  cases x.toModel.unpack <;> simp [UnpackedFloat.isInf]

theorem Finite.number (finite : Finite x) : Number x := by
  rw [number_iff]
  intro undefined
  rw [Finite, undefined] at finite
  cases finite

theorem Infinite.number (infinite : Infinite x) : Number x := by
  obtain ⟨s, known⟩ := infinite_iff.mp infinite
  rw [number_iff, known]
  exact fun same => by cases same

/-- A finite number is a zero or has a significand. -/
theorem unpack_of_finite (finite : Finite x) : (∃ s, x.toModel.unpack = .zero s) ∨
    ∃ s m e some, x.toModel.unpack = .finite s m e some := by
  unfold Finite at finite
  cases known : x.toModel.unpack with
  | notANumber => rw [known] at finite; cases finite
  | infinity s => rw [known] at finite; cases finite
  | zero s => exact Or.inl ⟨s, rfl⟩
  | finite s m e some => exact Or.inr ⟨s, m, e, some, rfl⟩

/-- A number is finite or infinite. -/
theorem finite_or_infinite (number : Number x) : Finite x ∨ Infinite x := by
  rw [number_iff] at number
  rw [infinite_iff, Finite]
  cases known : x.toModel.unpack with
  | notANumber => exact absurd known number
  | infinity s => exact Or.inr ⟨s, rfl⟩
  | zero s => exact Or.inl rfl
  | finite s m e some => exact Or.inl rfl

theorem not_number_neg : ¬Number (-x) ↔ ¬Number x := by
  rw [not_number_iff, not_number_iff, unpack_neg]
  cases x.toModel.unpack <;> simp [UnpackedFloat.neg]

theorem not_number_add (undefined : ¬Number x ∨ ¬Number y) : ¬Number (x + y) := by
  rw [not_number_iff, not_number_iff] at undefined
  rw [not_number_iff, unpack_add]
  rcases undefined with known | known <;> rw [known]
  · rfl
  · cases x.toModel.unpack <;> rfl

theorem not_number_sub (undefined : ¬Number x ∨ ¬Number y) : ¬Number (x - y) := by
  rw [sub_eq]
  exact not_number_add (undefined.imp id not_number_neg.mpr)

theorem not_number_mul (undefined : ¬Number x ∨ ¬Number y) : ¬Number (x * y) := by
  rw [not_number_iff, not_number_iff] at undefined
  rw [not_number_iff, unpack_mul]
  rcases undefined with known | known <;> rw [known]
  · rfl
  · cases x.toModel.unpack <;> rfl

theorem special_of_not_finite (unbounded : ¬Finite x) :
    x.toModel.unpack = .notANumber ∨ ∃ s, x.toModel.unpack = .infinity s := by
  by_cases number : Number x
  · exact Or.inr (infinite_iff.mp ((finite_or_infinite number).resolve_left unbounded))
  · exact Or.inl (not_number_iff.mp number)

/-- No product with a value that is not finite is finite. -/
theorem not_finite_mul (unbounded : ¬Finite y) : ¬Finite (x * y) := by
  rw [Finite, unpack_mul]
  rcases special_of_not_finite unbounded with known | ⟨s, known⟩ <;> rw [known] <;>
    cases x.toModel.unpack <;> exact Bool.false_ne_true

/-- Every number has a square. -/
theorem number_mul_self (number : Number x) : Number (x * x) := by
  change (x * x).toModel.unpack.isNaN = false
  rw [unpack_mul, isNaN_stored]
  rw [number_iff] at number
  cases known : x.toModel.unpack with
  | notANumber => exact absurd known number
  | infinity s => rfl
  | zero s => rfl
  | finite s m e some =>
    have held := canonical_unpack x
    rw [known] at held
    obtain ⟨-, finite, -⟩ := mul_real (by decide) held held rfl rfl
    exact isNaN_of_isFinite finite

/-- The positive infinite value. -/
def top : Float32 := .ofBits 0x7f800000

theorem top_unpack : top.toModel.unpack = .infinity .positive := rfl

theorem eq_top_iff : x = top ↔ x.toModel.unpack = .infinity .positive := by
  constructor
  · rintro rfl
    rfl
  · exact fun known => eq_of_unpack (known.trans top_unpack.symm)

theorem le_top (number : Number x) : x ≤ top := by
  refine le_iff.mpr ⟨number, rfl, ?_⟩
  rw [top_unpack]
  rcases x.toModel.unpack with (_ | _) | _ | (_ | _) | ⟨(_ | _), m, e, some⟩ <;>
    simp [rank, Prod.Lex.toLex_le_toLex]

theorem eq_top_of_le (above : top ≤ x) : x = top := by
  obtain ⟨-, number, ranks⟩ := le_iff.mp above
  rw [top_unpack] at ranks
  rw [eq_top_iff]
  rw [number_iff] at number
  rcases known : x.toModel.unpack with (_ | _) | _ | (_ | _) | ⟨(_ | _), m, e, some⟩ <;>
    rw [known] at ranks number <;>
    first
    | rfl
    | exact absurd rfl number
    | simp [rank, Prod.Lex.toLex_le_toLex] at ranks

/-- Infinity less a number that leaves one. -/
theorem top_sub (number : Number (top - x)) : top - x = top := by
  rw [number_iff, Single.sub_eq, unpack_add, unpack_neg, top_unpack] at number
  rw [eq_top_iff, Single.sub_eq, unpack_add, unpack_neg, top_unpack]
  generalize x.toModel.unpack = u at number
  rcases u with (_ | _) | _ | s | ⟨s, m, e, some⟩ <;> first | rfl | exact absurd rfl number

theorem abs_eq_top_iff (x : Float32) : x.abs = top ↔ Infinite x := by
  rw [eq_top_iff, unpack_abs, infinite_iff]
  generalize x.toModel.unpack = u
  constructor
  · intro same
    rcases u with s | _ | s | ⟨s, m, e, some⟩ <;> first | exact ⟨s, rfl⟩ | cases same
  · rintro ⟨s, rfl⟩
    rfl

end Special

section Rounded
variable {x y : Float32} {l h r : ℝ}

theorem places_eq : places .binary32 = 23 := rfl

theorem minExponent_eq : Format.binary32.minExponent = -149 := rfl

theorem top_eq : (2 : ℝ) ^ (highest .binary32 + places .binary32 + 1) = 2 ^ 128 := by
  have exponent : highest .binary32 + places .binary32 + 1 = (128 : ℕ) := by decide
  rw [exponent, zpow_natCast]

/-- A real number that the format holds. -/
def Fixed (r : ℝ) : Prop := Binary.round .binary32 r = r ∧ clip .binary32 r = r

theorem Fixed.neg (fixed : Fixed r) : Fixed (-r) :=
  ⟨by rw [round_neg, fixed.1], by rw [clip_neg, fixed.2, EReal.coe_neg]⟩

theorem clip_of_abs_le (small : |r| ≤ 2 ^ 127) : clip .binary32 r = r := by
  have inside : |r| < 2 ^ 128 := small.trans_lt (by norm_num)
  obtain ⟨above, below⟩ := abs_lt.mp inside
  exact clip_of_lt (by rwa [top_eq]) (by rwa [top_eq])

theorem fixed_zero : Fixed 0 := ⟨round_zero, clip_of_abs_le (by rw [abs_zero]; positivity)⟩

theorem fixed_scaled (n : ℕ) (e : ℤ) (bits : n ≤ 2 ^ 24) (least : -149 ≤ e)
    (small : (n * 2 ^ e : ℝ) ≤ 2 ^ 127) : Fixed (n * 2 ^ e) := by
  refine ⟨round_of_le bits least, clip_of_abs_le ?_⟩
  rwa [abs_of_nonneg (by positivity)]

theorem round_toReal (x : Float32) : Binary.round .binary32 (toReal x) = toReal x :=
  round_real (canonical_unpack x)

theorem round_le_of_one_le (normal : 1 ≤ r) : Binary.round .binary32 r ≤ 1.001 * r := by
  have least : (2 : ℝ) ^ (Format.binary32.minExponent + places .binary32) ≤ r := by
    refine le_trans ?_ normal
    exact zpow_le_one_of_nonpos₀ one_le_two (by decide)
  have near := (abs_le.mp (abs_round_sub_le least)).2
  rw [places_eq] at near
  norm_num at near ⊢
  linarith

theorem clip_round (low : Fixed l) (high : Fixed h) (least : l ≤ r) (most : r ≤ h) :
    clip .binary32 (Binary.round .binary32 r) = Binary.round .binary32 r :=
  clip_of_between low.2 high.2 (low.1.symm.trans_le (round_mono least))
    ((round_mono most).trans_eq high.1)

theorem value_eq (finite : Finite x) : value x = toReal x := by
  unfold value toReal
  rcases unpack_of_finite finite with ⟨s, known⟩ | ⟨s, m, e, some, known⟩ <;> rw [known] <;> rfl

theorem le_iff_toReal (left : Finite x) (right : Finite y) : x ≤ y ↔ toReal x ≤ toReal y := by
  rw [le_iff_value, value_eq left, value_eq right, EReal.coe_le_coe_iff]
  exact ⟨fun below => below.2.2, fun below => ⟨left.number, right.number, below⟩⟩

theorem lt_iff_toReal (left : Finite x) (right : Finite y) : x < y ↔ toReal x < toReal y := by
  rw [ordered.lt_iff, le_iff_toReal right left, not_le]
  exact ⟨fun below => below.2.2, fun below => ⟨left.number, right.number, below⟩⟩

theorem toReal_of_stored {u : UnpackedFloat} (packed : x.toModel.unpack = stored .binary32 u)
    (canonical : Canonical .binary32 u) (finite : u.isFinite = true)
    (within : clip .binary32 (real u) = real u) : Finite x ∧ toReal x = real u := by
  have kept := extended_stored (by decide) canonical finite
  rw [within, ← packed] at kept
  unfold Finite toReal
  cases known : x.toModel.unpack with
  | notANumber =>
    rw [known] at packed
    have lost : (stored .binary32 u).isNaN = u.isNaN := isNaN_stored u
    rw [← packed] at lost
    cases u with
    | notANumber => cases finite
    | infinity t => cases finite
    | zero t => cases lost
    | finite t m e some => cases lost
  | infinity s =>
    rw [known] at kept
    cases s with
    | negative => exact absurd kept (EReal.bot_ne_coe _)
    | positive => exact absurd kept (EReal.top_ne_coe _)
  | zero s =>
    rw [known] at kept
    exact ⟨rfl, EReal.coe_injective kept⟩
  | finite s m e some =>
    rw [known] at kept
    exact ⟨rfl, EReal.coe_injective kept⟩

/-- Finite, and within bounds. -/
structure Spans (l h : ℝ) (x : Float32) : Prop where
  finite : Finite x
  least : l ≤ toReal x
  most : toReal x ≤ h

theorem Spans.mono {l' h' : ℝ} (spans : Spans l h x) (lower : l' ≤ l) (upper : h ≤ h') :
    Spans l' h' x :=
  ⟨spans.finite, lower.trans spans.least, spans.most.trans upper⟩

theorem Spans.widen (spans : Spans 0 h x) : Spans (-h) h x :=
  spans.mono (neg_nonpos.mpr (spans.least.trans spans.most)) le_rfl

/-- The exact result of an operation, rounded, lies between any bounds of the format that the exact
result lies between. -/
theorem spans_of_stored {u : UnpackedFloat} (packed : x.toModel.unpack = stored .binary32 u)
    (canonical : Canonical .binary32 u) (finite : u.isFinite = true)
    (value : real u = Binary.round .binary32 r) (low : Fixed l) (high : Fixed h) (least : l ≤ r)
    (most : r ≤ h) : Spans l h x ∧ toReal x = Binary.round .binary32 r := by
  have within := clip_round low high least most
  rw [← value] at within
  obtain ⟨kept, same⟩ := toReal_of_stored packed canonical finite within
  refine ⟨⟨kept, ?_, ?_⟩, same.trans value⟩
  · rw [same, value, ← low.1]
    exact round_mono least
  · rw [same, value, ← high.1]
    exact round_mono most

theorem add_spans (first : Finite x) (second : Finite y) (low : Fixed l) (high : Fixed h)
    (least : l ≤ toReal x + toReal y) (most : toReal x + toReal y ≤ h) :
    Spans l h (x + y) ∧ toReal (x + y) = Binary.round .binary32 (toReal x + toReal y) := by
  obtain ⟨canonical, finite, value⟩ :=
    add_finite (canonical_unpack x) (canonical_unpack y) first second
  exact spans_of_stored (unpack_add x y) canonical finite value low high least most

theorem abs_finite (finite : Finite x) : Finite x.abs ∧ toReal x.abs = |toReal x| := by
  unfold Finite toReal
  rw [unpack_abs]
  rcases unpack_of_finite finite with ⟨s, known⟩ | ⟨s, m, e, some, known⟩ <;> rw [known]
  · exact ⟨rfl, abs_zero.symm⟩
  · have positive := magnitude_pos (e := e) some
    refine ⟨rfl, ?_⟩
    cases s with
    | negative =>
      change (m : ℝ) * 2 ^ e = |-((m : ℝ) * 2 ^ e)|
      rw [abs_neg, abs_of_pos positive]
    | positive => exact (abs_of_pos positive).symm

/-- Even where it is too large for the format, a sum of finite numbers is a number. -/
theorem number_add (first : Finite x) (second : Finite y) : Number (x + y) := by
  obtain ⟨-, finite, -⟩ := add_finite (canonical_unpack x) (canonical_unpack y) first second
  change (x + y).toModel.unpack.isNaN = false
  rw [unpack_add, isNaN_stored]
  exact isNaN_of_isFinite finite

theorem neg_finite (finite : Finite x) : Finite (-x) ∧ toReal (-x) = -toReal x := by
  unfold Finite toReal
  rw [unpack_neg, real_neg]
  rcases unpack_of_finite finite with ⟨s, known⟩ | ⟨s, m, e, some, known⟩ <;> rw [known] <;>
    exact ⟨rfl, rfl⟩

theorem Spans.neg (spans : Spans l h x) : Spans (-h) (-l) (-x) := by
  obtain ⟨finite, turned⟩ := neg_finite spans.finite
  exact ⟨finite, by rw [turned]; linarith [spans.most], by rw [turned]; linarith [spans.least]⟩

theorem sub_spans (first : Finite x) (second : Finite y) (low : Fixed l) (high : Fixed h)
    (least : l ≤ toReal x - toReal y) (most : toReal x - toReal y ≤ h) :
    Spans l h (x - y) ∧ toReal (x - y) = Binary.round .binary32 (toReal x - toReal y) := by
  obtain ⟨finite, turned⟩ := neg_finite second
  rw [sub_eq_add_neg, ← turned] at least most ⊢
  rw [sub_eq]
  exact add_spans first finite low high least most

theorem mul_spans (first : Finite x) (second : Finite y) (low : Fixed l) (high : Fixed h)
    (least : l ≤ toReal x * toReal y) (most : toReal x * toReal y ≤ h) :
    Spans l h (x * y) ∧ toReal (x * y) = Binary.round .binary32 (toReal x * toReal y) := by
  obtain ⟨canonical, finite, value⟩ :=
    mul_real (by decide) (canonical_unpack x) (canonical_unpack y) first second
  exact spans_of_stored (unpack_mul x y) canonical finite value low high least most

/-- A positive number as the format has it. -/
theorem unpack_of_pos (finite : Finite y) (positive : 0 < toReal y) :
    ∃ n f some, y.toModel.unpack = .finite .positive n f some := by
  unfold toReal at positive
  rcases unpack_of_finite finite with ⟨s, known⟩ | ⟨s, n, f, some, known⟩ <;>
    rw [known] at positive
  · exact absurd positive (lt_irrefl 0)
  · cases s with
    | negative => exact absurd positive (real_negative some).not_gt
    | positive => exact ⟨n, f, some, known⟩

theorem div_spans (first : Finite x) (second : Finite y) (positive : 0 < toReal y) (low : Fixed l)
    (high : Fixed h) (least : l ≤ toReal x / toReal y) (most : toReal x / toReal y ≤ h) :
    Spans l h (x / y) ∧ toReal (x / y) = Binary.round .binary32 (toReal x / toReal y) := by
  obtain ⟨n, f, some, known⟩ := unpack_of_pos second positive
  have divisor : toReal y = n * 2 ^ f := by
    rw [toReal, known]
    rfl
  obtain ⟨finite, value⟩ : _ ∧ real (UnpackedFloat.div .binary32 x.toModel.unpack
    (.finite .positive n f some)) = _ := div_real some first
  have packed := unpack_div x y
  rw [known] at packed
  rw [divisor] at least most ⊢
  exact spans_of_stored packed (canonical_div _ _) finite value low high least most

end Rounded

end RealtimeAudio.Single
