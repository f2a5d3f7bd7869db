import Mathlib.Data.List.GetD
import RealtimeAudio.Compressor
import RealtimeAudio.Proofs.Single.Magnitude

/-! Linking channels into one level per sample. Each level is the greatest magnitude at its
position, whatever the order of the channels, and samples that are not numbers count as silence. -/
namespace RealtimeAudio.Compressor
open Arithmetic

section Levels
variable {α : Type} [Arithmetic α]

def joined (levels xs : List α) : List α :=
  List.zipWith (fun l x => larger l (magnitude x)) levels xs

theorem link_eq (n : Nat) (channels : List (List α)) :
    link n channels = channels.foldl joined (List.replicate n 0.0) :=
  rfl

theorem length_joined {n : Nat} {levels xs : List α} (size : levels.length = n)
    (other : xs.length = n) : (joined levels xs).length = n := by
  rw [joined, List.length_zipWith, size, other, Nat.min_self]

theorem length_link (n : Nat) (channels : List (List α))
    (equal : ∀ xs ∈ channels, xs.length = n) : (link n channels).length = n := by
  have step (levels : List α) (size : levels.length = n) :
      (channels.foldl joined levels).length = n := by
    induction channels generalizing levels with
    | nil => exact size
    | cons xs rest ih =>
      exact ih (fun ys member => equal ys (List.mem_cons_of_mem _ member)) _
        (length_joined size (equal xs List.mem_cons_self))
  exact step _ List.length_replicate

omit [Arithmetic α] in
theorem equal_front {n k : Nat} {channels : List (List α)}
    (equal : ∀ xs ∈ channels, xs.length = n) : ∀ xs ∈ channels.take k, xs.length = n :=
  fun xs member => equal xs (List.mem_of_mem_take member)

omit [Arithmetic α] in
theorem equal_take {n m : Nat} {channels : List (List α)}
    (equal : ∀ xs ∈ channels, xs.length = n + m) :
    ∀ xs ∈ channels.map (List.take n), xs.length = n := by
  intro xs member
  obtain ⟨ys, among, rfl⟩ := List.mem_map.mp member
  rw [List.length_take, equal ys among, Nat.min_eq_left (Nat.le_add_right n m)]

omit [Arithmetic α] in
theorem equal_drop {n m : Nat} {channels : List (List α)}
    (equal : ∀ xs ∈ channels, xs.length = n + m) :
    ∀ xs ∈ channels.map (List.drop n), xs.length = m := by
  intro xs member
  obtain ⟨ys, among, rfl⟩ := List.mem_map.mp member
  rw [List.length_drop, equal ys among, Nat.add_sub_cancel_left]

theorem link_add (n m : Nat) (channels : List (List α))
    (equal : ∀ xs ∈ channels, xs.length = n + m) :
    link (n + m) channels =
      link n (channels.map (List.take n)) ++ link m (channels.map (List.drop n)) := by
  have step (front back : List α) (size : front.length = n) :
      channels.foldl joined (front ++ back) =
        (channels.map (List.take n)).foldl joined front ++
          (channels.map (List.drop n)).foldl joined back := by
    induction channels generalizing front back with
    | nil => rfl
    | cons xs rest ih =>
      have taken : (xs.take n).length = n := by
        rw [List.length_take, equal xs List.mem_cons_self]
        omega
      have cut : joined (front ++ back) xs =
          joined front (xs.take n) ++ joined back (xs.drop n) := by
        unfold joined
        rw [← List.zipWith_append (size.trans taken.symm), List.take_append_drop]
      rw [List.foldl_cons, cut, ih (fun ys member => equal ys (List.mem_cons_of_mem _ member)) _ _
        (length_joined size taken)]
      rfl
  rw [link_eq, ← List.replicate_append_replicate]
  exact step _ _ List.length_replicate

/-- The level at each position is decided by the samples at that position. -/
theorem getElem?_link {n t : Nat} {channels : List (List α)}
    (equal : ∀ xs ∈ channels, xs.length = n) (inside : t < n) :
    (link n channels)[t]? =
      some (((channels.map (·.getD t 0.0)).map magnitude).foldl larger 0.0) := by
  have step (levels : List α) (size : levels.length = n) :
      (channels.foldl joined levels)[t]? =
        some (((channels.map (·.getD t 0.0)).map magnitude).foldl larger (levels.getD t 0.0)) := by
    induction channels generalizing levels with
    | nil =>
      have within : t < levels.length := by omega
      rw [List.foldl_nil, List.getElem?_eq_getElem within, List.getD_eq_getElem levels 0.0 within]
      rfl
    | cons xs rest ih =>
      have long := equal xs List.mem_cons_self
      have whole := length_joined size long
      have first : (joined levels xs).getD t 0.0 =
          larger (levels.getD t 0.0) (magnitude (xs.getD t 0.0)) := by
        rw [List.getD_eq_getElem levels 0.0 (by omega), List.getD_eq_getElem xs 0.0 (by omega),
          List.getD_eq_getElem (joined levels xs) 0.0 (by omega)]
        exact List.getElem_zipWith
      rw [List.foldl_cons, ih (fun ys member => equal ys (List.mem_cons_of_mem _ member)) _ whole,
        first]
      rfl
  rw [link_eq, step _ List.length_replicate]
  congr 2
  exact List.getD_replicate _ inside

def loudness (x : α) : α :=
  if x ≤ x then magnitude x else 0.0

end Levels

section Binary
open Single

theorem zero_number : Number 0.0 := by decide +kernel

theorem greatest_loudness (samples : List Float32) :
    Greatest ((samples.map magnitude).foldl larger 0.0) (0.0 :: samples.map loudness) := by
  have loud {x : Float32} (number : Number x) : loudness x = magnitude x :=
    if_pos (ordered.refl number)
  constructor
  · rcases Ordered.foldl_larger_mem (0.0 : Float32) (samples.map magnitude) with none | reached
    · rw [none]
      exact List.mem_cons_self
    · have number := (ordered.numbers
        (ordered.le_foldl_larger_start zero_number (samples.map magnitude))).2
      obtain ⟨x, member, same⟩ := List.mem_map.mp reached
      rw [← same] at number ⊢
      rw [← loud ((number_abs x).mp number)]
      exact List.mem_cons_of_mem _ (List.mem_map_of_mem member)
  · have silence := ordered.le_foldl_larger_start zero_number (samples.map magnitude)
    intro level member
    rcases List.mem_cons.mp member with rfl | later
    · exact silence
    · obtain ⟨x, among, rfl⟩ := List.mem_map.mp later
      by_cases number : Number x
      · rw [loud number]
        exact ordered.le_foldl_larger zero_number (List.mem_map_of_mem among)
          ((number_abs x).mpr number)
      · rw [loudness, if_neg fun self => number ((ordered.le_self_iff x).mp self)]
        exact silence

theorem abs_foldl_larger (samples : List Float32) :
    ((samples.map magnitude).foldl larger 0.0).abs = (samples.map magnitude).foldl larger 0.0 := by
  rcases Ordered.foldl_larger_mem (0.0 : Float32) (samples.map magnitude) with none | reached
  · rw [none]
    decide +kernel
  · obtain ⟨x, -, same⟩ := List.mem_map.mp reached
    rw [← same]
    exact abs_abs x

/-- The order of the channels does not show in the levels, to the last bit. -/
theorem link_perm {n : Nat} {channels others : List (List Float32)} (perm : others.Perm channels)
    (equal : ∀ xs ∈ channels, xs.length = n) : link n others = link n channels := by
  have otherEqual : ∀ xs ∈ others, xs.length = n :=
    fun xs member => equal xs (perm.mem_iff.mp member)
  refine List.ext_getElem? fun t => ?_
  by_cases inside : t < n
  · rw [getElem?_link equal inside, getElem?_link otherEqual inside]
    have samples := (perm.map (·.getD t 0.0)).map magnitude
    have below := ordered.foldl_larger_mono zero_number samples.subset
    have above := ordered.foldl_larger_mono zero_number samples.symm.subset
    exact congrArg some (abs_eq_of_le (abs_foldl_larger _) (abs_foldl_larger _) below above)
  · rw [List.getElem?_eq_none (by rw [length_link n _ otherEqual]; omega),
      List.getElem?_eq_none (by rw [length_link n _ equal]; omega)]

end Binary

end RealtimeAudio.Compressor
