import RealtimeAudio.Arithmetic.Single
import RealtimeAudio.Proofs.Compressor.Stream
import RealtimeAudio.Proofs.Single.Division

/-! Cutting signals in different ways. What comes out of a new compressor is a function of its
parameters and the signals, and the deepest of the meter's readings is that of all attenuations,
so neither shows where one call ended and the next began. -/
namespace RealtimeAudio.Compressor
variable {α : Type} [Arithmetic α] [Elementary α]
open Arithmetic

section Meter
omit [Elementary α]
variable {Number : α → Prop} {states : List (GainState α)}

theorem deepest_eq_foldl (most : α) (states : List (GainState α)) :
    GainState.deepest most states = (states.map (·.attenuation)).foldl larger most :=
  List.foldl_map.symm

theorem deepest_number (order : Ordered α Number) (zero : Number 0.0)
    (states : List (GainState α)) : Number (GainState.deepest 0.0 states) := by
  rw [deepest_eq_foldl]
  exact (order.numbers (order.le_foldl_larger_start zero _)).2

/-- Fewer states are no deeper. -/
theorem deepest_le (order : Ordered α Number) (zero : Number 0.0) {some : List (GainState α)}
    (among : some ⊆ states) :
    GainState.deepest 0.0 some ≤ GainState.deepest 0.0 states := by
  rw [deepest_eq_foldl, deepest_eq_foldl]
  exact order.foldl_larger_mono zero (List.map_subset _ among)

/-- One of the blocks that the states are cut into is as deep as all of them. -/
theorem exists_deepest (order : Ordered α Number) (zero : Number 0.0) {sizes : List Nat}
    (cut : states.length = sizes.sum) (some : sizes ≠ []) :
    ∃ block ∈ sizes.splitLengths states,
      GainState.deepest 0.0 states ≤ GainState.deepest 0.0 block := by
  have whole := List.flatten_splitLengths states sizes (Nat.le_of_eq cut)
  have number := deepest_number order zero states
  rw [deepest_eq_foldl] at number ⊢
  rcases Ordered.foldl_larger_mem (0.0 : α) (states.map (·.attenuation)) with none | reached
  · obtain ⟨n, rest, rfl⟩ := List.exists_cons_of_ne_nil some
    rw [List.splitLengths_cons, none]
    refine ⟨_, List.mem_cons_self, ?_⟩
    rw [deepest_eq_foldl]
    exact order.le_foldl_larger_start zero _
  · obtain ⟨s, member, same⟩ := List.mem_map.mp reached
    rw [← whole] at member
    obtain ⟨block, among, inside⟩ := List.mem_flatten.mp member
    refine ⟨block, among, ?_⟩
    rw [deepest_eq_foldl]
    refine order.le_foldl_larger zero ?_ number
    rw [← same]
    exact List.mem_map_of_mem inside

/-- However the states are cut, the largest reading is that of all of them. -/
theorem maximum_meterReadings (order : Ordered α Number) (zero : Number 0.0)
    (scale : ∀ {x y : α}, x ≤ y → Level.logToDecibel x ≤ Level.logToDecibel y) {sizes : List Nat}
    (cut : states.length = sizes.sum) (some : sizes ≠ []) :
    maximum (meterReadings sizes states) ≤ Level.logToDecibel (GainState.deepest 0.0 states) ∧
      Level.logToDecibel (GainState.deepest 0.0 states) ≤
        maximum (meterReadings sizes states) := by
  have number (block : List (GainState α)) :
      Number (Level.logToDecibel (GainState.deepest 0.0 block)) :=
    (order.numbers (scale (order.refl (deepest_number order zero block)))).1
  constructor
  · refine Ordered.foldl_larger_le (order.bottom_le (number states)) fun reading member => ?_
    obtain ⟨block, among, rfl⟩ := List.mem_map.mp member
    refine scale (deepest_le order zero fun s inside => ?_)
    rw [← List.flatten_splitLengths states sizes (Nat.le_of_eq cut)]
    exact List.mem_flatten.mpr ⟨block, among, inside⟩
  · obtain ⟨block, among, deep⟩ := exists_deepest order zero cut some
    have lowest : Number (bottom : α) := (order.numbers (order.bottom_le (number block))).1
    exact order.trans (scale deep)
      (order.le_foldl_larger lowest (List.mem_map_of_mem among) (number block))

end Meter

/-- A way of cutting `n` samples into calls. -/
structure Cut (n : Nat) (sizes : List Nat) : Prop where
  total : sizes.sum = n
  bounded : ∀ m ∈ sizes, 1 ≤ m ∧ m ≤ blockLimit

/-- There is something to cut when there is a call. -/
theorem Cut.nil_iff {n : Nat} {sizes : List Nat} (cut : Cut n sizes) : sizes = [] ↔ n = 0 := by
  rw [← cut.total]
  constructor
  · rintro rfl
    rfl
  · intro nothing
    cases sizes with
    | nil => rfl
    | cons m rest =>
      have least := (cut.bounded m List.mem_cons_self).1
      rw [List.sum_cons] at nothing
      omega

/-- What a new compressor makes of whole signals of `n` samples. -/
def response (p : Parameters α) (n : Nat) (signals : List (List α)) : List (List α) :=
  let blocks := raised p (signals.take p.channels)
  emitted ((Flow.start p).gains p (link n blocks))
    (List.replicate blocks.length (List.replicate p.lookAhead 0.0)) blocks ++
      signals.drop p.channels

/-- What its meter shows after each of the calls. -/
def responseReadings (p : Parameters α) (sizes : List Nat) (signals : List (List α)) : List α :=
  let active := signals.take p.channels
  if active = [] then sizes.map fun _ => 0.0
  else meterReadings sizes ((Flow.start p).states p (link sizes.sum (raised p active)))

theorem ofParameters_carries (p : Parameters α) {active : Nat} (fits : active ≤ p.channels) :
    (ofParameters p).Carries p (.start p)
      (List.replicate active (List.replicate p.lookAhead 0.0)) where
  parameters := rfl
  shows := .ofParameters p
  delays := by
    constructor
    case length =>
      intro line member
      rw [List.eq_of_mem_replicate member, List.length_replicate]
      rfl
    case stored =>
      intro some
      refine ⟨List.replicate (p.channels - active) (List.replicate p.lookAhead 0.0), ?_⟩
      rw [List.replicate_append_replicate, Nat.add_sub_of_le fits]
      exact if_pos some

/-- What a new compressor makes of whole signals, and what it is left with: the state after all the
levels, or the first one where there is no channel to work on. -/
theorem ofParameters_stream_state (p : Parameters α) {n : Nat} {sizes : List Nat}
    {signals : List (List α)} (cut : Cut n sizes)
    (equal : ∀ xs ∈ signals.take p.channels, xs.length = n) :
    let levels := link n (raised p (signals.take p.channels))
    ∃ c, (ofParameters p).stream? sizes signals =
        some (c, response p n signals, responseReadings p sizes signals) ∧
      ∃ t ≤ n, (signals.take p.channels ≠ [] → t = n) ∧
        c.crest = ((Flow.start p).advance p (levels.take t)).crest ∧
        c.gain = ((Flow.start p).advance p (levels.take t)).gain := by
  intro levels
  have size : levels.length = n := length_link n _ (equal_raised equal)
  obtain ⟨rfl, bounded⟩ := cut
  by_cases idle : signals.take p.channels = []
  · have whole : signals.drop p.channels = signals := by
      conv => rhs; rw [← List.take_append_drop p.channels signals, idle, List.nil_append]
    refine ⟨ofParameters p, ?_, 0, Nat.zero_le _, fun used => absurd idle used, ?_⟩
    · rw [stream?_idle (ofParameters p) sizes signals idle]
      simp only [response, responseReadings, idle, raised, emitted, List.map_nil,
        List.zipWith_nil_right, List.nil_append, whole, if_true]
      rfl
    · rw [List.take_zero, Flow.advance_nil]
      exact ⟨rfl, rfl⟩
  · have fits : (raised p (signals.take p.channels)).length ≤ p.channels := by
      rw [raised, List.length_map, List.length_take]
      exact Nat.min_le_left _ _
    obtain ⟨c, streamed, carries⟩ := (ofParameters_carries p fits).stream bounded equal idle
      List.length_replicate rfl
    refine ⟨c, ?_, sizes.sum, le_rfl, fun _ => rfl, ?_⟩
    · rw [streamed, responseReadings, if_neg idle]
      rfl
    · rw [List.take_of_length_le size.le]
      exact ⟨carries.shows.crest, carries.shows.gain⟩

theorem ofParameters_stream (p : Parameters α) {n : Nat} {sizes : List Nat}
    {signals : List (List α)} (cut : Cut n sizes)
    (equal : ∀ xs ∈ signals.take p.channels, xs.length = n) :
    ∃ c, (ofParameters p).stream? sizes signals =
      some (c, response p n signals, responseReadings p sizes signals) := by
  obtain ⟨c, streamed, -⟩ := ofParameters_stream_state p cut equal
  exact ⟨c, streamed⟩

/-- No way of cutting the signals makes the meter show more. -/
theorem maximum_responseReadings_le {Number : α → Prop} (order : Ordered α Number)
    (zero : Number 0.0)
    (scale : ∀ {x y : α}, x ≤ y → Level.logToDecibel x ≤ Level.logToDecibel y) (p : Parameters α)
    {n : Nat} {signals : List (List α)} {sizes others : List Nat}
    (equal : ∀ xs ∈ signals.take p.channels, xs.length = n) (cut : Cut n sizes)
    (other : Cut n others) :
    maximum (responseReadings p sizes signals) ≤ maximum (responseReadings p others signals) := by
  have lowest : Number (bottom : α) := (order.numbers (order.bottom_le zero)).1
  by_cases none : others = []
  · have same : sizes = [] := cut.nil_iff.mpr (other.nil_iff.mp none)
    rw [none, same]
    exact order.refl (order.numbers (order.le_foldl_larger_start lowest _)).2
  · unfold responseReadings
    by_cases idle : signals.take p.channels = []
    · rw [if_pos idle, if_pos idle]
      obtain ⟨m, rest, rfl⟩ := List.exists_cons_of_ne_nil none
      have reached : 0.0 ≤ maximum ((m :: rest).map fun _ => (0.0 : α)) :=
        order.le_foldl_larger lowest List.mem_cons_self zero
      refine Ordered.foldl_larger_le (order.trans (order.bottom_le zero) reached) ?_
      intro reading member
      obtain ⟨-, -, rfl⟩ := List.mem_map.mp member
      exact reached
    · have some : sizes ≠ [] := fun nil => none (other.nil_iff.mpr (cut.nil_iff.mp nil))
      have states : ((Flow.start p).states p
          (link n (raised p (signals.take p.channels)))).length = n := by
        rw [Flow.length_states, length_link n _ (equal_raised equal)]
      rw [if_neg idle, if_neg idle, cut.total, other.total]
      exact order.trans
        (maximum_meterReadings order zero scale (states.trans cut.total.symm) some).1
        (maximum_meterReadings order zero scale (states.trans other.total.symm) none).2

theorem logToDecibel_mono {x y : Float32} (below : x ≤ y) :
    Level.logToDecibel x ≤ Level.logToDecibel y := by
  have divisor : (Level.lnPerDecibel : Float32).toModel.unpack = .finite .positive _ _ _ := rfl
  exact Single.div_mono divisor below

/-- However signals are cut into calls, the output streams are the same, and so is the deepest
attenuation that the meter shows, up to the sign of zero. Nothing is assumed of `exp`, `ln` and
the powers. -/
theorem stream_partition [Elementary Float32] (preset : Preset Float32) {n : Nat}
    {signals : List (List Float32)} {sizes others : List Nat}
    (equal : ∀ xs ∈ signals, xs.length = n) (cut : Cut n sizes) (other : Cut n others) :
    ∃ c c' outputs readings readings',
      (ofPreset preset).stream? sizes signals = some (c, outputs, readings) ∧
      (ofPreset preset).stream? others signals = some (c', outputs, readings') ∧
      maximum readings ≤ maximum readings' ∧ maximum readings' ≤ maximum readings := by
  have active : ∀ xs ∈ signals.take (Parameters.ofPreset preset).channels, xs.length = n :=
    equal_front equal
  have zero : Single.Number 0.0 := by decide +kernel
  obtain ⟨c, first⟩ := ofParameters_stream (.ofPreset preset) cut active
  obtain ⟨c', second⟩ := ofParameters_stream (.ofPreset preset) other active
  have below := maximum_responseReadings_le Single.ordered zero logToDecibel_mono
    (.ofPreset preset) active cut other
  have above := maximum_responseReadings_le Single.ordered zero logToDecibel_mono
    (.ofPreset preset) active other cut
  exact ⟨c, c', _, _, _, first, second, below, above⟩

theorem stream_partition_standard :
    Cut 3 [1, 2] ∧ Cut 3 [2, 1] ∧ ∃ c c' outputs readings readings',
      (ofPreset Preset.standard).stream? [1, 2] [[0.5, -1.0, 0.25], [0.0, 0.75, -0.5]] =
        some (c, outputs, readings) ∧
      (ofPreset Preset.standard).stream? [2, 1] [[0.5, -1.0, 0.25], [0.0, 0.75, -0.5]] =
        some (c', outputs, readings') ∧
      maximum readings ≤ maximum readings' ∧ maximum readings' ≤ maximum readings := by
  have cut : Cut 3 [1, 2] := ⟨rfl, by decide⟩
  have other : Cut 3 [2, 1] := ⟨rfl, by decide⟩
  exact ⟨cut, other, stream_partition Preset.standard (by decide) cut other⟩

end RealtimeAudio.Compressor
