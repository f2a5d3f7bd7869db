import Mathlib

/-! The order of binary numbers. Values that are numbers, infinities included, are ordered by a
rank, in which the two zeros agree; a comparison with a value that is not a number fails. -/
namespace RealtimeAudio.Binary
open Float.Model (UnpackedFloat)

/-- The place of a number among the others: its side of zero with the infinities outermost,
then exponent and significand, turned round below zero. -/
def rank : UnpackedFloat → ℤ ×ₗ ℤ ×ₗ ℤ
  | .infinity .negative => toLex (-2, toLex (0, 0))
  | .finite .negative m e _ => toLex (-1, toLex (-e, -m))
  | .zero _ | .notANumber => toLex (0, toLex (0, 0))
  | .finite .positive m e _ => toLex (1, toLex (e, m))
  | .infinity .positive => toLex (2, toLex (0, 0))

theorem compare_then (e f : ℤ) (m n : ℕ) :
    (compare e f).then (compare m n) =
      if e < f ∨ e = f ∧ m < n then .lt else if e = f ∧ m = n then .eq else .gt := by
  rcases lt_trichotomy e f with less | rfl | greater
  · simp [compare_lt_iff_lt.mpr less, less]
  · rcases lt_trichotomy m n with less | rfl | greater
    · simp [compare_lt_iff_lt.mpr less, less]
    · simp
    · simp [compare_gt_iff_gt.mpr greater, greater.not_gt, greater.ne']
  · simp [compare_gt_iff_gt.mpr greater, greater.not_gt, greater.ne']

theorem compare_eq_rank {a b : UnpackedFloat} (left : a.isNaN = false) (right : b.isNaN = false) :
    a.compare b = some (if rank a < rank b then .lt else if rank a = rank b then .eq else .gt) := by
  rcases a with (_ | _) | _ | (_ | _) | ⟨(_ | _), m, e, hm⟩ <;>
    rcases b with (_ | _) | _ | (_ | _) | ⟨(_ | _), n, f, hn⟩ <;>
    first
    | contradiction
    | simp [UnpackedFloat.compare, rank, Prod.Lex.toLex_lt_toLex, compare_then]
  all_goals first
    | rfl
    | grind [Ordering.swap]

theorem compare_of_isNaN {a b : UnpackedFloat} (undefined : a.isNaN = true ∨ b.isNaN = true) :
    a.compare b = none := by
  cases a <;> cases b <;> simp_all [UnpackedFloat.isNaN, UnpackedFloat.compare]

/-- A comparison has an outcome between two numbers only, the one by their ranks. -/
theorem compare_eq_some_iff {a b : UnpackedFloat} {o : Ordering} :
    a.compare b = some o ↔ a.isNaN = false ∧ b.isNaN = false ∧ o.Compares (rank a) (rank b) := by
  cases left : a.isNaN with
  | true => simp [compare_of_isNaN (Or.inl left)]
  | false =>
    cases right : b.isNaN with
    | true => simp [compare_of_isNaN (Or.inr right)]
    | false =>
      rw [compare_eq_rank left right]
      rcases lt_trichotomy (rank a) (rank b) with less | equal | greater
      · cases o <;> simp [Ordering.Compares, less, less.ne, less.not_gt]
      · cases o <;> simp [Ordering.Compares, equal]
      · cases o <;> simp [Ordering.Compares, greater, greater.ne', greater.not_gt]

theorem le_iff_rank (a b : UnpackedFloat) :
    a.le b = true ↔ a.isNaN = false ∧ b.isNaN = false ∧ rank a ≤ rank b := by
  unfold UnpackedFloat.le
  rw [Option.any_eq_true, le_iff_lt_or_eq]
  simp only [compare_eq_some_iff]
  constructor
  · rintro ⟨_ | _ | _, ⟨left, right, order⟩, within⟩
    · exact ⟨left, right, Or.inl order⟩
    · exact ⟨left, right, Or.inr order⟩
    · cases within
  · rintro ⟨left, right, less | equal⟩
    · exact ⟨.lt, ⟨left, right, less⟩, rfl⟩
    · exact ⟨.eq, ⟨left, right, equal⟩, rfl⟩

theorem lt_iff_rank (a b : UnpackedFloat) :
    a.lt b = true ↔ a.isNaN = false ∧ b.isNaN = false ∧ rank a < rank b := by
  unfold UnpackedFloat.lt
  rw [beq_iff_eq, compare_eq_some_iff]
  rfl

theorem rank_infinity_le (a : UnpackedFloat) : rank (.infinity .negative) ≤ rank a := by
  rcases a with (_ | _) | _ | (_ | _) | ⟨(_ | _), m, e, hm⟩ <;>
    simp [rank, Prod.Lex.toLex_le_toLex]

end RealtimeAudio.Binary
