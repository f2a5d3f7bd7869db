import RealtimeAudio.Bytes

/-! Byte sequences read as records of one width. What is left over at the end and does not
fill a record is not part of any. -/
namespace RealtimeAudio.Bytes

/-- The whole records of `width` bytes, in order. -/
def records (width : Nat) (bytes : List UInt8) : List (List UInt8) :=
  groups width bytes.length bytes

variable {width : Nat} {bytes : List UInt8}

theorem groups_eq_slices (positive : 0 < width) {fuel : Nat} (enough : bytes.length ≤ fuel) :
    groups width fuel bytes =
      (List.range (bytes.length / width)).map fun k => (bytes.drop (k * width)).take width := by
  induction fuel generalizing bytes with
  | zero =>
    have : bytes.length = 0 := by omega
    simp [groups, this]
  | succ fuel ih =>
    rw [groups]
    split
    · rename_i short
      simp [Nat.div_eq_of_lt short]
    · rename_i long
      have count : bytes.length / width = (bytes.drop width).length / width + 1 := by
        rw [List.length_drop, Nat.div_eq_sub_div positive (by omega)]
      rw [ih (by rw [List.length_drop]; omega), count, List.range_succ_eq_map, List.map_cons,
        List.map_map]
      congr 1
      · simp
      · refine List.map_congr_left fun k _ => ?_
        simp only [Function.comp_apply, List.drop_drop, Nat.succ_mul]
        rw [Nat.add_comm]

theorem records_eq_slices (positive : 0 < width) (bytes : List UInt8) :
    records width bytes =
      (List.range (bytes.length / width)).map fun k => (bytes.drop (k * width)).take width :=
  groups_eq_slices positive (Nat.le_refl _)

theorem take_records (positive : 0 < width) {count : Nat} (enough : count ≤ bytes.length / width) :
    (records width bytes).take count =
      (List.range count).map fun k => (bytes.drop (k * width)).take width := by
  rw [records_eq_slices positive, ← List.map_take, List.take_range, Nat.min_eq_left enough]

theorem flatten_take_records (positive : 0 < width) {count : Nat}
    (enough : count ≤ bytes.length / width) :
    ((records width bytes).take count).flatten = bytes.take (count * width) := by
  rw [take_records positive enough]
  clear enough
  induction count with
  | zero => simp
  | succ count ih =>
    rw [List.range_succ, List.map_append, List.flatten_append, ih, Nat.succ_mul, List.take_add]
    simp

theorem records_cons (positive : 0 < width) {first : List UInt8} (whole : first.length = width)
    (rest : List UInt8) : records width (first ++ rest) = first :: records width rest := by
  have count : (first ++ rest).length / width = rest.length / width + 1 := by
    rw [List.length_append, whole, Nat.add_div_left _ positive]
  rw [records_eq_slices positive, records_eq_slices positive, count, List.range_succ_eq_map,
    List.map_cons, List.map_map]
  congr 1
  · rw [Nat.zero_mul, List.drop_zero, List.take_left' whole]
  · refine List.map_congr_left fun k _ => ?_
    rw [Function.comp_apply, Nat.succ_mul, Nat.add_comm, ← List.drop_drop,
      List.drop_left' whole]

/-- Records put one after the other are read back. -/
theorem records_flatten (positive : 0 < width) {parts : List (List UInt8)}
    (whole : ∀ part ∈ parts, part.length = width) : records width parts.flatten = parts := by
  induction parts with
  | nil => rfl
  | cons part rest ih =>
    rw [List.flatten_cons, records_cons positive (whole part List.mem_cons_self),
      ih fun other member => whole other (List.mem_cons_of_mem part member)]

end RealtimeAudio.Bytes
