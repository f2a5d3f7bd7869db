import RealtimeAudio.Arithmetic

/-! Comparisons of samples and levels. Some values may be no numbers; on the others comparison
is a linear preorder, in which distinct values may be equal. -/
namespace RealtimeAudio.Arithmetic

/-- How comparisons behave, with `Number` telling the values that can be compared. -/
structure Compared (α : Type) [Arithmetic α] (Number : α → Prop) : Prop where
  le_self_iff : ∀ x : α, x ≤ x ↔ Number x
  numbers : ∀ {x y : α}, x ≤ y → Number x ∧ Number y
  trans : ∀ {x y z : α}, x ≤ y → y ≤ z → x ≤ z
  total : ∀ {x y : α}, Number x → Number y → x ≤ y ∨ y ≤ x
  lt_iff : ∀ x y : α, x < y ↔ Number x ∧ Number y ∧ ¬y ≤ x

/-- Comparisons with a least value. -/
structure Ordered (α : Type) [Arithmetic α] (Number : α → Prop) : Prop
    extends Compared α Number where
  bottom_le : ∀ {x : α}, Number x → bottom ≤ x

def Greatest {α : Type} [Arithmetic α] (x : α) (xs : List α) : Prop :=
  x ∈ xs ∧ ∀ y ∈ xs, y ≤ x

/-- The largest of some values; `bottom` where there is none. -/
def maximum {α : Type} [Arithmetic α] (xs : List α) : α :=
  xs.foldl larger bottom

namespace Compared
variable {α : Type} [Arithmetic α] {Number : α → Prop} {x y : α}

theorem refl (order : Compared α Number) (number : Number x) : x ≤ x :=
  (order.le_self_iff x).mpr number

theorem le_of_not_le (order : Compared α Number) (left : Number x) (right : Number y)
    (above : ¬x ≤ y) : y ≤ x :=
  (order.total left right).resolve_left above

theorem le_of_not_lt (order : Compared α Number) (left : Number x) (right : Number y)
    (least : ¬y < x) : x ≤ y :=
  Decidable.byContradiction fun above => least ((order.lt_iff y x).mpr ⟨right, left, above⟩)

end Compared

namespace Ordered
variable {α : Type} [Arithmetic α] {Number : α → Prop} {x y z : α}

theorem larger_eq (x y : α) : larger x y = x ∨ larger x y = y := by
  unfold larger
  split
  · split
    · exact Or.inl rfl
    · exact Or.inr rfl
  · exact Or.inl rfl

theorem larger_of_not_number (order : Ordered α Number) (lost : ¬Number y) : larger x y = x :=
  if_neg fun self => lost ((order.le_self_iff y).mp self)

theorem larger_number (order : Ordered α Number) (number : Number x) : Number (larger x y) := by
  by_cases other : Number y
  · rcases larger_eq x y with first | second
    · rwa [first]
    · rwa [second]
  · rwa [order.larger_of_not_number other]

theorem le_larger_left (order : Ordered α Number) (number : Number x) : x ≤ larger x y := by
  unfold larger
  split
  · rename_i self
    split
    · exact order.refl number
    · rename_i above
      exact Decidable.byContradiction fun less =>
        above ((order.lt_iff y x).mpr ⟨(order.le_self_iff y).mp self, number, less⟩)
  · exact order.refl number

theorem le_larger_right (order : Ordered α Number) (number : Number y) : y ≤ larger x y := by
  rw [larger, if_pos (order.refl number)]
  split
  · rename_i less
    obtain ⟨-, other, below⟩ := (order.lt_iff y x).mp less
    exact order.le_of_not_le other number below
  · exact order.refl number

theorem larger_le (left : x ≤ z) (right : y ≤ z) : larger x y ≤ z := by
  rcases larger_eq x y with first | second
  · rwa [first]
  · rwa [second]

theorem foldl_larger_le {xs : List α} (start : x ≤ z) (each : ∀ y ∈ xs, y ≤ z) :
    xs.foldl larger x ≤ z := by
  induction xs generalizing x with
  | nil => exact start
  | cons y rest ih =>
    exact ih (larger_le start (each y List.mem_cons_self))
      fun w member => each w (List.mem_cons_of_mem _ member)

theorem foldl_larger_mem (x : α) (xs : List α) :
    xs.foldl larger x = x ∨ xs.foldl larger x ∈ xs := by
  induction xs generalizing x with
  | nil => exact Or.inl rfl
  | cons y rest ih =>
    rw [List.foldl_cons]
    rcases ih (larger x y) with unchanged | later
    · rw [unchanged]
      exact (larger_eq x y).imp id fun second => by rw [second]; exact List.mem_cons_self
    · exact Or.inr (List.mem_cons_of_mem _ later)

theorem le_foldl_larger_start (order : Ordered α Number) (number : Number x) (xs : List α) :
    x ≤ xs.foldl larger x := by
  induction xs generalizing x with
  | nil => exact order.refl number
  | cons y rest ih =>
    exact order.trans (order.le_larger_left number) (ih (order.larger_number number))

theorem le_foldl_larger (order : Ordered α Number) (number : Number x) {xs : List α}
    (member : y ∈ xs) (other : Number y) : y ≤ xs.foldl larger x := by
  induction xs generalizing x with
  | nil => cases member
  | cons w rest ih =>
    rcases List.mem_cons.mp member with rfl | later
    · exact order.trans (order.le_larger_right other)
        (order.le_foldl_larger_start (order.larger_number number) rest)
    · exact ih (order.larger_number number) later

theorem foldl_larger_mono (order : Ordered α Number) (number : Number x) {xs ys : List α}
    (among : xs ⊆ ys) : xs.foldl larger x ≤ ys.foldl larger x := by
  have result : Number (xs.foldl larger x) :=
    (order.numbers (order.le_foldl_larger_start number xs)).2
  rcases foldl_larger_mem x xs with unchanged | member
  · rw [unchanged]
    exact order.le_foldl_larger_start number ys
  · exact order.le_foldl_larger number (among member) result

end Ordered

end RealtimeAudio.Arithmetic
