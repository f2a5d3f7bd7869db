import RealtimeAudio.Compressor.Delay

/-! A delay line is a queue of fixed length. However long the block is, what comes out is the
line followed by the block, and what stays is the rest of it. -/
namespace RealtimeAudio.Segment
variable {α : Type}

theorem read?_append {start count : Nat} {front xs back : List α} (place : front.length = start)
    (size : xs.length = count) : read? start count (front ++ xs ++ back) = some xs := by
  subst place size
  rw [read?, if_pos (by simp only [List.length_append]; omega), List.append_assoc,
    List.drop_left, List.take_left]

theorem write?_append {start : Nat} {front xs ys back : List α} (place : front.length = start)
    (size : ys.length = xs.length) :
    write? start ys (front ++ xs ++ back) = some (front ++ ys ++ back) := by
  subst place
  rw [write?, if_pos (by simp only [List.length_append]; omega), size, ← List.length_append,
    List.drop_left, List.append_assoc front xs, List.take_left]

theorem read?_front {n : Nat} {xs : List α} (fits : n ≤ xs.length) :
    read? 0 n xs = some (xs.take n) := by
  rw [read?, if_pos (by omega), List.drop_zero]

theorem write?_front {ys xs : List α} (fits : ys.length ≤ xs.length) :
    write? 0 ys xs = some (ys ++ xs.drop ys.length) := by
  rw [write?, if_pos (by omega), List.take_zero, List.nil_append, Nat.zero_add]

end RealtimeAudio.Segment

namespace RealtimeAudio.Delay
variable {α : Type}

/-- What leaves a line when a block enters it. -/
def leaving (line block : List α) : List α := (line ++ block).take block.length

/-- What a line holds once a block has entered it. -/
def remaining (line block : List α) : List α := (line ++ block).drop block.length

@[simp] theorem length_leaving (line block : List α) :
    (leaving line block).length = block.length := by
  simp only [leaving, List.length_take, List.length_append]
  omega

@[simp] theorem length_remaining (line block : List α) :
    (remaining line block).length = line.length := by
  simp only [remaining, List.length_drop, List.length_append]
  omega

theorem leaving_append (line xs ys : List α) :
    leaving line (xs ++ ys) = leaving line xs ++ leaving (remaining line xs) ys := by
  have shorter : xs.length ≤ (line ++ xs).length := by
    rw [List.length_append]
    omega
  rw [leaving, List.length_append, ← List.append_assoc, List.take_add,
    List.take_append_of_le_length shorter, List.drop_append_of_le_length shorter]
  rfl

theorem remaining_append (line xs ys : List α) :
    remaining line (xs ++ ys) = remaining (remaining line xs) ys := by
  have shorter : xs.length ≤ (line ++ xs).length := by
    rw [List.length_append]
    omega
  rw [remaining, List.length_append, ← List.append_assoc, ← List.drop_drop,
    List.drop_append_of_le_length shorter]
  rfl

theorem leaving_of_le {line block : List α} (fits : line.length ≤ block.length) :
    leaving line block = line ++ block.take (block.length - line.length) := by
  rw [leaving, List.take_append, List.take_of_length_le fits]

theorem remaining_of_le {line block : List α} (fits : line.length ≤ block.length) :
    remaining line block = block.drop (block.length - line.length) := by
  rw [remaining, List.drop_append, List.drop_of_length_le fits, List.nil_append]

theorem leaving_of_lt {line block : List α} (longer : block.length < line.length) :
    leaving line block = line.take block.length :=
  List.take_append_of_le_length (Nat.le_of_lt longer)

theorem remaining_of_lt {line block : List α} (longer : block.length < line.length) :
    remaining line block = line.drop block.length ++ block :=
  List.drop_append_of_le_length (Nat.le_of_lt longer)

/-- The sample `delay` positions before position `t`, and `fill` before there is one. -/
def behind (fill : α) (delay : Nat) (xs : List α) (t : Nat) : α :=
  if t < delay then fill else xs.getD (t - delay) fill

/-- A line of equal samples puts a signal off by its length. -/
theorem getElem?_leaving (fill : α) (delay : Nat) {xs : List α} {t : Nat} (inside : t < xs.length) :
    (leaving (List.replicate delay fill) xs)[t]? = some (behind fill delay xs t) := by
  rw [leaving, List.getElem?_take_of_lt inside, behind]
  split
  · rename_i early
    rw [List.getElem?_append_left (by rwa [List.length_replicate]),
      List.getElem?_replicate_of_lt early]
  · rename_i late
    have within : t - delay < xs.length := by omega
    rw [List.getElem?_append_right (by rw [List.length_replicate]; omega), List.length_replicate,
      List.getD_eq_getElem?_getD, List.getElem?_eq_getElem within, Option.getD_some]

theorem rotateRight_eq {xs : List α} {n : Nat} (inside : n ≤ xs.length) :
    xs.rotateRight n = xs.drop (xs.length - n) ++ xs.take (xs.length - n) := by
  have none : xs.drop (xs.length - 0) ++ xs.take (xs.length - 0) = xs := by simp
  have whole : xs.drop (xs.length - xs.length) ++ xs.take (xs.length - xs.length) = xs := by simp
  unfold List.rotateRight
  dsimp only
  by_cases short : xs.length ≤ 1
  · rw [if_pos short]
    by_cases still : n = 0
    · rw [still, none]
    · have all : n = xs.length := by omega
      rw [all, whole]
  · rw [if_neg short]
    by_cases all : n = xs.length
    · rw [all, whole, Nat.mod_self, none]
    · rw [Nat.mod_eq_of_lt (by omega)]

theorem rotateLeft_eq {xs : List α} {n : Nat} (inside : n < xs.length) :
    xs.rotateLeft n = xs.drop n ++ xs.take n := by
  unfold List.rotateLeft
  dsimp only
  by_cases short : xs.length ≤ 1
  · have still : n = 0 := by omega
    rw [if_pos short, still, List.drop_zero, List.take_zero, List.append_nil]
  · rw [if_neg short, Nat.mod_eq_of_lt inside]

theorem exchange?_eq {length : Nat} {line : List α} (fits : line.length = length)
    (block : List α) :
    exchange? length line block = some (leaving line block, remaining line block) := by
  subst fits
  unfold exchange?
  split
  · rename_i long
    have start : block.length - (block.length - line.length) = line.length := by omega
    have head : (block.drop (block.length - line.length)).length = line.length := by
      rw [List.length_drop, start]
    dsimp only
    rw [if_pos rfl, rotateRight_eq long, leaving_of_le long, remaining_of_le long,
      List.drop_left' head, List.take_left' head]
  · rename_i short
    have longer : block.length < line.length := by omega
    have front : (line.take block.length).length = block.length := by
      rw [List.length_take]
      omega
    have parts : line = [] ++ line.take block.length ++ line.drop block.length := by simp
    have read : Segment.read? 0 block.length line = some (line.take block.length) := by
      conv => lhs; rw [parts]
      exact Segment.read?_append rfl front
    have written : Segment.write? 0 block line = some ([] ++ block ++ line.drop block.length) := by
      conv => lhs; rw [parts]
      exact Segment.write?_append rfl front.symm
    have inside : block.length < (block ++ line.drop block.length).length := by
      rw [List.length_append, List.length_drop]
      omega
    rw [read, written, List.nil_append, leaving_of_lt longer, remaining_of_lt longer]
    simp only [Option.bind_eq_bind, Option.bind_some, rotateLeft_eq inside, List.drop_left,
      List.take_left, Option.pure_def]

/-- Each channel's block goes through that channel's line. -/
theorem exchangeAll?_eq {length : Nat} {lines blocks spare : List (List α)}
    (count : lines.length = blocks.length) (fits : ∀ line ∈ lines, line.length = length) :
    exchangeAll? length (lines ++ spare) blocks =
      some (List.zipWith leaving lines blocks, List.zipWith remaining lines blocks ++ spare) := by
  induction lines generalizing blocks with
  | nil =>
    obtain rfl : blocks = [] := List.length_eq_zero_iff.mp count.symm
    cases spare <;> rfl
  | cons line lines ih =>
    cases blocks with
    | nil => cases count
    | cons block blocks =>
      have rest := ih (Nat.succ.inj count) fun other member =>
        fits other (List.mem_cons_of_mem _ member)
      have first := exchange?_eq (fits line List.mem_cons_self) block
      simp only [List.cons_append, exchangeAll?, first, rest, Option.bind_eq_bind,
        Option.bind_some, Option.pure_def, List.zipWith_cons_cons]

end RealtimeAudio.Delay
