import Mathlib
import RealtimeAudio.Proofs.Ring.Records
import RealtimeAudio.Transport

/-! Frames of samples, and samples as bytes. Each way of taking signals apart is undone by the
other, and both respect cutting: the first frames, or the first bytes, are those of the first
samples. -/
namespace RealtimeAudio

namespace Bytes

@[simp] theorem length_ofNat (width n : Nat) : (ofNat width n).length = width := by
  induction width generalizing n with
  | zero => rfl
  | succ width ih => simp [ofNat, ih]

theorem toNat_ofNat {width n : Nat} (fits : n < 256 ^ width) : toNat (ofNat width n) = n := by
  induction width generalizing n with
  | zero =>
    simp only [Nat.pow_zero] at fits
    simp only [ofNat, toNat]
    omega
  | succ width ih =>
    have rest : n / 256 < 256 ^ width := by
      rw [Nat.pow_succ] at fits
      omega
    simp only [ofNat, toNat, ih rest, UInt8.toNat_ofNat']
    omega

theorem ofNats_eq_flatten (width : Nat) (numbers : List Nat) :
    ofNats width numbers = (numbers.map (ofNat width)).flatten :=
  List.flatMap_def

theorem toNats_ofNats {width : Nat} (positive : 0 < width) {numbers : List Nat}
    (fit : ∀ n ∈ numbers, n < 256 ^ width) : toNats width (ofNats width numbers) = numbers := by
  have parts : groups width (ofNats width numbers).length (ofNats width numbers) =
      numbers.map (ofNat width) := by
    rw [ofNats_eq_flatten]
    apply records_flatten positive
    intro part member
    obtain ⟨n, -, rfl⟩ := List.mem_map.mp member
    exact length_ofNat width n
  rw [toNats, parts, List.map_map]
  conv => rhs; rw [← List.map_id numbers]
  exact List.map_congr_left fun n member => toNat_ofNat (fit n member)

/-- The bits of samples survive being moved as bytes. -/
theorem toSingles_ofSingles (samples : List Float32) : toSingles (ofSingles samples) = samples := by
  have fit : ∀ n ∈ samples.map (·.toBits.toNat), n < 256 ^ 4 := by
    intro n member
    obtain ⟨x, -, rfl⟩ := List.mem_map.mp member
    exact x.toBits.toNat_lt
  rw [toSingles, ofSingles, toNats_ofNats (by decide) fit, List.map_map]
  conv => rhs; rw [← List.map_id samples]
  refine List.map_congr_left fun x _ => ?_
  exact (congrArg Float32.ofBits UInt32.ofNat_toNat).trans (Float32.ofBits_toBits x)

theorem ofSingles_append (xs ys : List Float32) :
    ofSingles (xs ++ ys) = ofSingles xs ++ ofSingles ys := by
  simp only [ofSingles, ofNats, List.map_append, List.flatMap_append]

@[simp] theorem length_ofSingles (samples : List Float32) :
    (ofSingles samples).length = 4 * samples.length := by
  induction samples with
  | nil => rfl
  | cons x rest ih =>
    have first : ofSingles (x :: rest) = ofNat 4 x.toBits.toNat ++ ofSingles rest := rfl
    rw [first, List.length_append, ih, length_ofNat, List.length_cons]
    omega

theorem take_ofSingles (samples : List Float32) (count : Nat) :
    (ofSingles samples).take (4 * count) = ofSingles (samples.take count) := by
  by_cases enough : count ≤ samples.length
  · conv => lhs; rw [← List.take_append_drop count samples, ofSingles_append]
    apply List.take_left'
    rw [length_ofSingles, List.length_take, Nat.min_eq_left enough]
  · have short : (ofSingles samples).length ≤ 4 * count := by
      rw [length_ofSingles]
      omega
    rw [List.take_of_length_le short, List.take_of_length_le (by omega)]

end Bytes

namespace Frames
variable {α : Type} {channels : List (List α)} {n m : Nat}

section Heads

/-- The first frame: one sample of each channel. -/
theorem map_some_heads (filled : ∀ xs ∈ channels, xs ≠ []) :
    (channels.filterMap List.head?).map some = channels.map List.head? := by
  induction channels with
  | nil => rfl
  | cons xs rest ih =>
    have later := ih fun ys member => filled ys (List.mem_cons_of_mem _ member)
    cases xs with
    | nil => exact absurd rfl (filled [] List.mem_cons_self)
    | cons x xs =>
      have first : ((x :: xs) :: rest).filterMap List.head? = x :: rest.filterMap List.head? :=
        rfl
      rw [first, List.map_cons, List.map_cons, later]
      rfl

theorem length_heads (filled : ∀ xs ∈ channels, xs ≠ []) :
    (channels.filterMap List.head?).length = channels.length := by
  simpa using congrArg List.length (map_some_heads filled)

theorem filled_of_length (equal : ∀ xs ∈ channels, xs.length = n + 1) :
    ∀ xs ∈ channels, xs ≠ [] := by
  rintro xs member rfl
  exact absurd (equal [] member) (Nat.succ_ne_zero n).symm

theorem equal_tail (equal : ∀ xs ∈ channels, xs.length = n + 1) :
    ∀ xs ∈ channels.map List.tail, xs.length = n := by
  intro xs member
  obtain ⟨ys, among, rfl⟩ := List.mem_map.mp member
  rw [List.length_tail, equal ys among, Nat.add_sub_cancel]

end Heads

section Interleaving

theorem length_interleave (equal : ∀ xs ∈ channels, xs.length = n) :
    (interleave n channels).length = n * channels.length := by
  induction n generalizing channels with
  | zero => simp [interleave]
  | succ n ih =>
    rw [interleave, List.length_append, length_heads (filled_of_length equal),
      ih (equal_tail equal), List.length_map, Nat.succ_mul, Nat.add_comm]

theorem interleave_add (n m : Nat) (channels : List (List α)) :
    interleave (n + m) channels =
      interleave n channels ++ interleave m (channels.map (List.drop n)) := by
  induction n generalizing channels with
  | zero =>
    have whole : channels.map (List.drop 0) = channels :=
      List.map_id'' (fun _ => List.drop_zero) channels
    rw [Nat.zero_add, whole]
    rfl
  | succ n ih =>
    have later : (channels.map List.tail).map (List.drop n) = channels.map (List.drop (n + 1)) := by
      rw [List.map_map]
      apply List.map_congr_left
      intro xs _
      cases xs <;> simp
    rw [Nat.succ_add, interleave, interleave, ih, later, List.append_assoc]

/-- Only the first samples are in the first frames. -/
theorem interleave_take (n : Nat) (channels : List (List α)) :
    interleave n (channels.map (List.take n)) = interleave n channels := by
  induction n generalizing channels with
  | zero => rfl
  | succ n ih =>
    have heads : (channels.map (List.take (n + 1))).filterMap List.head? =
        channels.filterMap List.head? := by
      rw [List.filterMap_map]
      apply List.filterMap_congr
      intro xs _
      cases xs <;> rfl
    have tails : (channels.map (List.take (n + 1))).map List.tail =
        (channels.map List.tail).map (List.take n) := by
      rw [List.map_map, List.map_map]
      apply List.map_congr_left
      intro xs _
      cases xs <;> simp
    rw [interleave, interleave, heads, tails, ih]

/-- A channel's samples are found again at its place of each frame. -/
theorem filterMap_frames (some : channels ≠ []) (equal : ∀ xs ∈ channels, xs.length = n)
    {channel : Nat} (inside : channel < channels.length) :
    (frames channels.length n (interleave n channels)).filterMap (·[channel]?) =
      channels[channel] := by
  induction n generalizing channels with
  | zero =>
    have silent := equal _ (List.getElem_mem inside)
    rw [List.eq_nil_of_length_eq_zero silent]
    rfl
  | succ n ih =>
    have filled := filled_of_length equal
    have heads := length_heads filled
    have others : channels.map List.tail ≠ [] := by simpa using some
    have later := ih others (equal_tail equal) (by rwa [List.length_map])
    simp only [List.length_map, List.getElem_map] at later
    have whole : ¬(interleave (n + 1) channels).length < channels.length := by
      rw [interleave, List.length_append]
      omega
    have first : (channels.filterMap List.head?)[channel]? = channels[channel].head? := by
      have both := congrArg (·[channel]?) (map_some_heads filled)
      simp only [List.getElem?_map, List.getElem?_eq_getElem inside, Option.map_some] at both
      cases found : (channels.filterMap List.head?)[channel]? with
      | none => rw [found] at both; contradiction
      | some x => rw [found] at both; exact Option.some.inj both
    rw [frames, if_neg whole, interleave, List.take_left' heads, List.drop_left' heads]
    cases stored : channels[channel] with
    | nil => exact absurd stored (filled _ (List.getElem_mem inside))
    | cons x xs =>
      rw [stored] at first later
      rw [List.filterMap_cons, first, later]
      rfl

theorem deinterleave_interleave (some : channels ≠ []) (equal : ∀ xs ∈ channels, xs.length = n) :
    deinterleave channels.length (interleave n channels) = channels := by
  have positive : 0 < channels.length := List.length_pos_of_ne_nil some
  have count : (interleave n channels).length / channels.length = n := by
    rw [length_interleave equal, Nat.mul_div_cancel _ positive]
  apply List.ext_getElem
  · simp [deinterleave]
  · intro channel _ inside
    simp only [deinterleave, List.getElem_map, List.getElem_range, count]
    exact filterMap_frames some equal inside

theorem count_eq (some : channels ≠ []) (equal : ∀ xs ∈ channels, xs.length = n) :
    count channels = n := by
  cases channels with
  | nil => exact absurd rfl some
  | cons xs rest =>
    rw [count, equal xs List.mem_cons_self]
    have others : ∀ ys ∈ rest, ys.length = n :=
      fun ys member => equal ys (List.mem_cons_of_mem _ member)
    clear equal some
    induction rest with
    | nil => rfl
    | cons ys rest ih =>
      rw [List.foldl_cons, others ys List.mem_cons_self, Nat.min_self]
      exact ih fun zs member => others zs (List.mem_cons_of_mem _ member)

end Interleaving

end Frames

end RealtimeAudio
