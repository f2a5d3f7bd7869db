import RealtimeAudio.Proofs.Binary.Mixing
import RealtimeAudio.Proofs.Binary.Sign
import RealtimeAudio.Proofs.Single.Overflow

/-! Smoothing on binary32 numbers. Within a power of two it stays there; from a value that is not
finite it goes to no number, whatever it is mixed with: infinity less infinity. -/
namespace RealtimeAudio.Single
open Arithmetic Binary
open Float.Model (Format UnpackedFloat)
open Float.Model.UnpackedFloat

variable {a b t : Float32}

section Special

theorem not_number_mix (undefined : ¬Number a ∨ ¬Number b) : ¬Number (mix a b t) := by
  rcases undefined with first | second
  · exact not_number_add (Or.inl first)
  · exact not_number_add (Or.inr (not_number_mul (Or.inr (not_number_sub (Or.inl second)))))

/-- The values that are not below zero. -/
theorem unpack_of_not_neg (rising : ¬t < 0.0) :
    t.toModel.unpack = .notANumber ∨ (∃ s, t.toModel.unpack = .zero s) ∨
      t.toModel.unpack = .infinity .positive ∨
      ∃ m e some, t.toModel.unpack = .finite .positive m e some := by
  by_cases undefined : t.toModel.unpack = .notANumber
  · exact Or.inl undefined
  · have ranks : ¬rank t.toModel.unpack < rank (.zero .positive) := fun less =>
      rising (lt_iff.mpr ⟨number_iff.mpr undefined, by decide +kernel, less⟩)
    generalize t.toModel.unpack = u at ranks
    rcases u with (_ | _) | _ | s | ⟨(_ | _), m, e, some⟩
    · simp [rank, Prod.Lex.toLex_lt_toLex] at ranks
    · exact Or.inr (Or.inr (Or.inl rfl))
    · exact Or.inl rfl
    · exact Or.inr (Or.inl ⟨s, rfl⟩)
    · simp [rank, Prod.Lex.toLex_lt_toLex] at ranks
    · exact Or.inr (Or.inr (Or.inr ⟨m, e, some, rfl⟩))

/-- The distance to an infinite value. -/
theorem unpack_sub_infinity {s : Sign} (infinite : a.toModel.unpack = .infinity s) :
    (b - a).toModel.unpack = .notANumber ∨ (b - a).toModel.unpack = .infinity (-s) := by
  rw [sub_eq, unpack_add, unpack_neg, infinite]
  cases b.toModel.unpack with
  | notANumber => exact Or.inl rfl
  | infinity u => cases u <;> cases s <;> first | exact Or.inl rfl | exact Or.inr rfl
  | zero u => exact Or.inr rfl
  | finite u m e some => exact Or.inr rfl

/-- A part of an infinite distance. -/
theorem unpack_part {d : Float32} {s : Sign} (rising : ¬t < 0.0)
    (distance : d.toModel.unpack = .notANumber ∨ d.toModel.unpack = .infinity s) :
    (t * d).toModel.unpack = .notANumber ∨ (t * d).toModel.unpack = .infinity s := by
  rw [unpack_mul]
  rcases distance with undefined | infinite
  · rw [undefined]
    left
    cases t.toModel.unpack <;> rfl
  · rw [infinite]
    rcases unpack_of_not_neg rising with known | ⟨u, known⟩ | known | ⟨m, e, some, known⟩ <;>
      rw [known]
    · exact Or.inl rfl
    · exact Or.inl rfl
    · cases s <;> exact Or.inr rfl
    · cases s <;> exact Or.inr rfl

theorem not_number_mix_of_not_finite (unbounded : ¬Finite a) (rising : ¬t < 0.0) :
    ¬Number (mix a b t) := by
  by_cases number : Number a
  · obtain ⟨s, infinite⟩ := infinite_iff.mp ((finite_or_infinite number).resolve_left unbounded)
    have part := unpack_part rising (unpack_sub_infinity (b := b) infinite)
    rw [not_number_iff, mix, unpack_add, infinite]
    rcases part with undefined | opposite
    · rw [undefined]
      rfl
    · rw [opposite]
      cases s <;> rfl
  · exact not_number_mix (Or.inl number)

end Special

section Bounded
variable {k : ℕ}

theorem fixed_two_pow (small : k ≤ 127) : Fixed (2 ^ k) := by
  have fixed := fixed_scaled 1 k (by norm_num) (by omega)
    (by rw [Nat.cast_one, one_mul, zpow_natCast]; exact pow_le_pow_right₀ one_le_two small)
  rwa [Nat.cast_one, one_mul, zpow_natCast] at fixed

/-- The step that a mixture takes from the first number towards the second. -/
theorem part_spans (small : k ≤ 126) (first : Spans (-2 ^ k) (2 ^ k) a)
    (second : Spans (-2 ^ k) (2 ^ k) b) (unit : Spans 0 1 t) :
    Spans (-2 ^ (k + 1)) (2 ^ (k + 1)) (t * (b - a)) ∧ toReal (t * (b - a)) =
      Binary.round .binary32 (toReal t * Binary.round .binary32 (toReal b - toReal a)) := by
  have fixed : Fixed (2 ^ (k + 1)) := fixed_two_pow (by omega)
  have double : (2 : ℝ) ^ (k + 1) = 2 ^ k + 2 ^ k := by rw [pow_succ, mul_two]
  obtain ⟨distance, value⟩ := sub_spans second.finite first.finite fixed.neg fixed
    (by linarith [first.most, second.least]) (by linarith [first.least, second.most])
  rw [← value]
  have most : |toReal t * toReal (b - a)| ≤ 2 ^ (k + 1) := by
    rw [abs_mul, abs_of_nonneg unit.least]
    calc
      toReal t * |toReal (b - a)| ≤ 1 * |toReal (b - a)| := by
        gcongr
        exact unit.most
      _ ≤ 2 ^ (k + 1) := by
        rw [one_mul]
        exact abs_le.mpr ⟨distance.least, distance.most⟩
  obtain ⟨low, high⟩ := abs_le.mp most
  exact mul_spans unit.finite distance.finite fixed.neg fixed low high

/-- The mixture is the exact one with each of the steps rounded. -/
theorem toReal_mix (small : k ≤ 125) (first : Spans (-2 ^ k) (2 ^ k) a)
    (second : Spans (-2 ^ k) (2 ^ k) b) (unit : Spans 0 1 t) :
    Finite (mix a b t) ∧
      toReal (mix a b t) = mixed .binary32 (toReal a) (toReal b) (toReal t) := by
  have fixed : Fixed (2 ^ (k + 2)) := fixed_two_pow (by omega)
  have double : (2 : ℝ) ^ (k + 2) = 2 ^ (k + 1) + 2 ^ (k + 1) := by rw [pow_succ, mul_two]
  have wider : (2 : ℝ) ^ k ≤ 2 ^ (k + 1) := pow_le_pow_right₀ one_le_two (by omega)
  obtain ⟨part, value⟩ := part_spans (by omega) first second unit
  obtain ⟨sum, exact⟩ := add_spans first.finite part.finite fixed.neg fixed
    (by linarith [first.least, part.least]) (by linarith [first.most, part.most])
  rw [value] at exact
  exact ⟨sum.finite, exact⟩

theorem mix_spans (small : k ≤ 125) (first : Spans (-2 ^ k) (2 ^ k) a)
    (second : Spans (-2 ^ k) (2 ^ k) b) (unit : Spans 0 1 t) :
    Spans (-2 ^ k) (2 ^ k) (mix a b t) := by
  obtain ⟨finite, exact⟩ := toReal_mix small first second unit
  have within : |mixed .binary32 (toReal a) (toReal b) (toReal t)| ≤ 2 ^ (k : ℤ) := abs_mixed_le
    (by rw [minExponent_eq, places_eq]; omega)
    (by rw [zpow_natCast]; exact abs_le.mpr ⟨first.least, first.most⟩)
    (by rw [zpow_natCast]; exact abs_le.mpr ⟨second.least, second.most⟩) unit.least unit.most
  rw [← exact, zpow_natCast] at within
  obtain ⟨low, high⟩ := abs_le.mp within
  exact ⟨finite, low, high⟩

/-- Of two numbers, the larger mixes to no less. -/
theorem mix_le {c : Float32} (small : k ≤ 125) (first : Spans (-2 ^ k) (2 ^ k) a)
    (second : Spans (-2 ^ k) (2 ^ k) b) (third : Spans (-2 ^ k) (2 ^ k) c) (unit : Spans 0 1 t)
    (below : toReal b ≤ toReal c) : mix a b t ≤ mix a c t := by
  obtain ⟨finite, exact⟩ := toReal_mix small first second unit
  obtain ⟨other, more⟩ := toReal_mix small first third unit
  rw [le_iff_toReal finite other, exact, more]
  exact mixed_mono unit.least below

theorem part_nonneg (small : k ≤ 125) (first : Spans 0 (2 ^ k) a) (second : Spans 0 (2 ^ k) b)
    (unit : Spans 0 1 t) : Finite (t * (b - a)) ∧ 0 ≤ toReal a + toReal (t * (b - a)) := by
  obtain ⟨part, value⟩ := part_spans (by omega) first.widen second.widen unit
  have above := neg_le_part (round_toReal a) first.least second.least unit.least unit.most
  rw [← value] at above
  exact ⟨part.finite, by linarith⟩

/-- Between numbers that are not negative, smoothing stays there. -/
theorem mix_nonneg_spans (small : k ≤ 125) (first : Spans 0 (2 ^ k) a) (second : Spans 0 (2 ^ k) b)
    (unit : Spans 0 1 t) : Spans 0 (2 ^ k) (mix a b t) := by
  have within := mix_spans small first.widen second.widen unit
  obtain ⟨part, sum⟩ := part_nonneg small first second unit
  exact ⟨within.finite, toReal_add_nonneg first.finite part within.finite sum, within.most⟩

/-- A positive number mixed with one that is not negative has no minus sign. -/
theorem hasSign_mix (small : k ≤ 125) (first : Spans 0 (2 ^ k) a) (positive : 0 < toReal a)
    (second : Spans 0 (2 ^ k) b) (unit : Spans 0 1 t) :
    HasSign .positive (mix a b t).toModel.unpack := by
  obtain ⟨part, sum⟩ := part_nonneg small first second unit
  obtain ⟨m, e, some, known⟩ := unpack_of_pos first.finite positive
  rw [mix, unpack_add, known]
  refine (hasSign_add some part ?_).stored
  rw [← known]
  exact sum

end Bounded

end RealtimeAudio.Single
