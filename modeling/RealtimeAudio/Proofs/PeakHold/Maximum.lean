import RealtimeAudio.Proofs.PeakHold.Entries
import RealtimeAudio.Proofs.PeakHold.Store
import RealtimeAudio.Proofs.Single.Order

/-! A peak hold computes the maximum of a sliding window. Where all samples are numbers, the
entries descend from the front, and every sample still in the window is dominated by an entry
that outlives it. -/
namespace RealtimeAudio
open Arithmetic (Compared Ordered Greatest)

/-- The samples at positions up to `t` of which a window of the given length holds the
maximum. -/
def recent {α : Type} (length t : Nat) (samples : List α) : List α :=
  (samples.take (t + 1)).drop (t + 1 - length)

namespace Window
variable {α : Type} [Arithmetic α] {Number : α → Prop}

/-- A window as the samples have left it, at the time `next`. -/
structure Reflects (length : Nat) (samples : List α) (next : Nat) (w : Window α) : Prop where
  sampled : ∀ e ∈ w.entries, ∃ s, e.expiry = s + length ∧ samples[s]? = some e.value
  expiries : w.entries.Pairwise fun a b => a.expiry < b.expiry
  values : w.entries.Pairwise fun a b => ¬a.value ≤ b.value
  current : ∀ e ∈ w.entries, next ≤ e.expiry
  dominated : ∀ s x, samples[s]? = some x → next ≤ s + length →
    ∃ e ∈ w.entries, s + length ≤ e.expiry ∧ x ≤ e.value

namespace Reflects
variable {length next : Nat} {samples : List α} {w : Window α}

/-- Among numbers only, entries are settled from the first sample on. -/
theorem settled_iff : Reflects length samples next w ↔ Settled length 0 0 0 samples next w := by
  constructor
  · rintro ⟨sampled, expiries, values, current, dominated⟩
    refine ⟨⟨sampled, expiries, current w.front List.mem_cons_self⟩, values.imp ?_,
      fun s x _ => dominated s x⟩
    intro a b above _
    exact above
  · rintro ⟨follows, values, dominated⟩
    refine ⟨follows.sampled, follows.expiries,
      values.imp_of_mem fun member _ above => above (follows.since_start member), ?_,
      fun s x => dominated s x (Nat.zero_le s)⟩
    intro e member
    have current := follows.current
    rcases List.mem_cons.mp member with rfl | later
    · exact current
    · have outlives := (List.pairwise_cons.mp follows.expiries).1 e later
      omega

theorem feed (order : Compared α Number) (numbers : ∀ x ∈ samples, Number x)
    (least : ∀ x ∈ samples, Arithmetic.bottom ≤ x) (long : 2 ≤ length)
    (some : samples ≠ []) :
    Reflects length samples samples.length ((initial length).feed length 0 samples).1 := by
  rw [settled_iff]
  induction samples using List.reverseRecOn with
  | nil => exact absurd rfl some
  | append_singleton earlier x ih =>
    have number := numbers x (by simp)
    have before : ∀ y ∈ earlier, Number y := fun y member => numbers y (by simp [member])
    have above : ∀ y ∈ earlier, Arithmetic.bottom ≤ y := fun y member => least y (by simp [member])
    rw [feed_snoc, Nat.zero_add, List.length_append, List.length_singleton]
    by_cases none : earlier = []
    · subst none
      have alone : (initial length).update length 0 x = ⟨⟨x, 0 + length⟩, []⟩ :=
        if_pos (least x (by simp))
      exact alone ▸ Settled.alone order number (by omega) le_rfl
    · have expired := (ih before above none).expire ((timely_feed long earlier).lasts long)
      exact expired.push order (fun s y _ found => before y (List.mem_of_getElem? found)) number
        (by omega) fun _ => Or.inl (expired.toFollows.since_start List.mem_cons_self)

/-- The front is the maximum of the last samples. -/
theorem greatest (order : Compared α Number) (numbers : ∀ x ∈ samples, Number x)
    (reflects : Reflects length samples samples.length w) :
    Greatest w.peak (samples.drop (samples.length - length)) := by
  have settled := settled_iff.mp reflects
  exact ⟨settled.toFollows.peak_mem, settled.above order
    (fun s x _ found => numbers x (List.mem_of_getElem? found))
    (settled.toFollows.since_start List.mem_cons_self) (Nat.zero_le _)⟩

end Reflects

theorem getElem_feed (length : Nat) (w : Window α) (position : Nat) (samples : List α) (t : Nat)
    (inside : t < (w.feed length position samples).2.length) :
    (w.feed length position samples).2[t] =
      (w.feed length position (samples.take (t + 1))).1.peak := by
  induction samples using List.reverseRecOn with
  | nil => exact absurd inside (Nat.not_lt_zero t)
  | append_singleton earlier x ih =>
    have count := length_feed length w position earlier
    simp only [feed_snoc, List.length_append, List.length_singleton] at inside ⊢
    by_cases before : t < (w.feed length position earlier).2.length
    · rw [List.getElem_append_left before, ih before, List.take_append_of_le_length (by omega)]
    · have place : t = earlier.length := by omega
      rw [List.getElem_append_right (by omega)]
      have whole : (earlier ++ [x]).take (t + 1) = earlier ++ [x] :=
        List.take_of_length_le (by simp [place])
      simp only [whole, feed_snoc, List.getElem_singleton]

/-- The maxima of samples that are not below the start value. -/
theorem feed_greatest_of_least (order : Compared α Number) {length : Nat} (long : 2 ≤ length)
    {samples : List α} (numbers : ∀ x ∈ samples, Number x)
    (least : ∀ x ∈ samples, Arithmetic.bottom ≤ x) (t : Nat)
    (inside : t < ((initial length).feed length 0 samples).2.length) :
    Greatest ((initial length).feed length 0 samples).2[t] (recent length t samples) := by
  have place : t < samples.length := by rwa [length_feed] at inside
  have count : (samples.take (t + 1)).length = t + 1 := by
    rw [List.length_take]
    omega
  have first : ∀ x ∈ samples.take (t + 1), Number x := fun x member =>
    numbers x (List.mem_of_mem_take member)
  have above : ∀ x ∈ samples.take (t + 1), Arithmetic.bottom ≤ x := fun x member =>
    least x (List.mem_of_mem_take member)
  have reflects := Reflects.feed order first above long (List.ne_nil_of_length_pos (by omega))
  have greatest := reflects.greatest order first
  rw [count] at greatest
  rw [getElem_feed]
  exact greatest

theorem feed_greatest (order : Ordered α Number) {length : Nat} (long : 2 ≤ length)
    {samples : List α} (numbers : ∀ x ∈ samples, Number x) (t : Nat)
    (inside : t < ((initial length).feed length 0 samples).2.length) :
    Greatest ((initial length).feed length 0 samples).2[t] (recent length t samples) :=
  feed_greatest_of_least order.toCompared long numbers
    (fun x member => order.bottom_le (numbers x member)) t inside

theorem feed_getLast? (length : Nat) (w : Window α) (position : Nat) (samples : List α) {last : α}
    (latest : (w.feed length position samples).2.getLast? = some last) :
    (w.feed length position samples).1.peak = last := by
  cases samples using List.reverseRecOn with
  | nil => cases latest
  | append_singleton earlier x => simpa [feed_snoc] using latest

end Window

namespace PeakHold

/-- However the samples are cut into blocks, a hold gives at each position the maximum of the
last samples, as many as it is long, and keeps the last maximum. -/
theorem blocks_sliding_maximum (length : Nat) (blocks : List (List Float32))
    (numbers : ∀ block ∈ blocks, ∀ x ∈ block, Single.Number x) :
    ∃ h peaks, (PeakHold.new length).blocks? blocks = some (h, peaks) ∧
      peaks.length = blocks.flatten.length ∧
      (∀ t (inside : t < peaks.length),
        Greatest peaks[t] (recent (max 2 (min (blockLimit - 1) length)) t blocks.flatten)) ∧
      ∀ last, peaks.getLast? = some last → h.peak = last := by
  have start : (PeakHold.new length : PeakHold Float32).Tracks 0 0 _ := Tracks.new length
  obtain ⟨h, done, -, tracked⟩ := start.blocks blocks
  have whole : ∀ x ∈ blocks.flatten, Single.Number x := by
    intro x member
    obtain ⟨block, among, inside⟩ := List.mem_flatten.mp member
    exact numbers block among x inside
  refine ⟨h, _, done, Window.length_feed _ _ _ _, ?_, ?_⟩
  · exact Window.feed_greatest Single.ordered start.long whole
  · intro last latest
    rw [tracked.shows.peak_eq]
    exact Window.feed_getLast? _ _ _ _ latest

theorem blocks_sliding_maximum_bottom :
    (∀ block ∈ [[0.5, -1.0, -0.0], [], [0.0, 2.0, Arithmetic.bottom, -3.0]],
      ∀ x ∈ block, Single.Number x) ∧
    ∃ h peaks, (PeakHold.new 1).blocks?
        [[0.5, -1.0, -0.0], [], [0.0, 2.0, Arithmetic.bottom, (-3.0 : Float32)]] =
          some (h, peaks) ∧
      ∃ last, peaks.getLast? = some last ∧
        Greatest last [Arithmetic.bottom, (-3.0 : Float32)] ∧ h.peak = last := by
  have numbers : ∀ block ∈ [[0.5, -1.0, -0.0], [], [0.0, 2.0, Arithmetic.bottom, -3.0]],
      ∀ x ∈ block, Single.Number x := by decide +kernel
  obtain ⟨h, peaks, done, count, greatest, latest⟩ := blocks_sliding_maximum 1 _ numbers
  have count : peaks.length = 7 := count
  have last : peaks.getLast? = some (peaks[6]) := by
    simp [List.getLast?_eq_getElem?, count]
  exact ⟨numbers, h, peaks, done, _, last, greatest 6 (by omega), latest _ last⟩

end PeakHold

end RealtimeAudio
