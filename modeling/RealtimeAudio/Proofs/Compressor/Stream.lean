import Mathlib.Data.List.SplitLengths
import RealtimeAudio.Proofs.Compressor.Block

/-! Consecutive calls on blocks cut from whole signals. The calls together do what the flow does
on the whole signals, so how the signals are cut does not show in what comes out. -/
namespace RealtimeAudio.Compressor
variable {α : Type} [Arithmetic α] [Elementary α]
open Arithmetic

omit [Elementary α] in
theorem emitted_append {n m : Nat} {front back : List α} {lines blocks : List (List α)}
    (size : front.length = n) (equal : ∀ xs ∈ blocks, xs.length = n + m) :
    emitted (front ++ back) lines blocks =
      List.zipWith (· ++ ·) (emitted front lines (blocks.map (List.take n)))
        (emitted back (List.zipWith Delay.remaining lines (blocks.map (List.take n)))
          (blocks.map (List.drop n))) := by
  induction lines generalizing blocks with
  | nil => rfl
  | cons line lines ih =>
    cases blocks with
    | nil => rfl
    | cons xs blocks =>
      have long := equal xs List.mem_cons_self
      have rest := ih fun ys member => equal ys (List.mem_cons_of_mem _ member)
      have cut : (Delay.leaving line (xs.take n)).length = front.length := by
        rw [Delay.length_leaving, List.length_take]
        omega
      have first : List.zipWith (· * ·) (Delay.leaving line xs) (front ++ back) =
          List.zipWith (· * ·) (Delay.leaving line (xs.take n)) front ++
            List.zipWith (· * ·)
              (Delay.leaving (Delay.remaining line (xs.take n)) (xs.drop n)) back := by
        rw [← List.zipWith_append cut, ← Delay.leaving_append, List.take_append_drop]
      simp only [emitted, List.zipWith_cons_cons, List.map_cons, first] at rest ⊢
      rw [rest]

/-- What the meter shows after calls on blocks of the given sizes. -/
def meterReadings (sizes : List Nat) (states : List (GainState α)) : List α :=
  (sizes.splitLengths states).map fun block =>
    Level.logToDecibel (GainState.deepest 0.0 block)

omit [Arithmetic α] [Elementary α] in
theorem zipWith_take_drop (n : Nat) (signals : List (List α)) :
    List.zipWith (· ++ ·) (signals.map (List.take n)) (signals.map (List.drop n)) = signals := by
  rw [List.zipWith_map_left, List.zipWith_map_right, List.zipWith_self]
  simp

theorem stream?_idle (c : Compressor α) (sizes : List Nat) (signals : List (List α))
    (idle : signals.take c.parameters.channels = []) :
    c.stream? sizes signals = some (c, signals, sizes.map fun _ => c.meter.get) := by
  induction sizes generalizing signals with
  | nil => rfl
  | cons n sizes ih =>
    have first : (signals.map (List.take n)).take c.parameters.channels = [] := by
      rw [← List.map_take, idle, List.map_nil]
    have later : (signals.map (List.drop n)).take c.parameters.channels = [] := by
      rw [← List.map_take, idle, List.map_nil]
    rw [stream?, process?_idle c n _ (Or.inr first), Option.bind_eq_bind, Option.bind_some]
    dsimp only
    rw [ih _ later, Option.bind_eq_bind, Option.bind_some]
    dsimp only
    rw [zipWith_take_drop]
    rfl

theorem Carries.processWhole {c : Compressor α} {f : Flow α}
    {lines blocks buffers : List (List α)} {p : Parameters α} {n : Nat}
    (carries : c.Carries p f lines) (bounded : 1 ≤ n ∧ n ≤ blockLimit)
    (equal : ∀ b ∈ buffers.take p.channels, b.length = n) (used : buffers.take p.channels ≠ [])
    (channels : lines.length = blocks.length) (cut : raised p (buffers.take p.channels) = blocks) :
    ∃ c', c.process? n buffers = some (c',
        emitted (f.gains p (link n blocks)) lines blocks ++ buffers.drop p.channels) ∧
      c'.Carries p (f.advance p (link n blocks)) (List.zipWith Delay.remaining lines blocks) ∧
      c'.meter.get =
        Level.logToDecibel (GainState.deepest 0.0 (f.states p (link n blocks))) := by
  have whole : (buffers.take p.channels).map (List.take n) = buffers.take p.channels := by
    conv => rhs; rw [← List.map_id (buffers.take p.channels)]
    refine List.map_congr_left fun b member => ?_
    rw [List.take_of_length_le (Nat.le_of_eq (equal b member))]
    rfl
  have count : blocks.length = (buffers.take p.channels).length := by
    rw [← cut, raised, List.length_map]
  have cutWhole : raised p ((buffers.take p.channels).map (List.take n)) = blocks := by
    rw [whole, cut]
  obtain ⟨c', processed, result⟩ := carries.process (blockLength_eq bounded.2 equal)
    bounded.1 used (channels.trans count) cutWhole
  refine ⟨c', ?_, result⟩
  rw [processed]
  congr 3
  refine List.ext_getElem (by simp [emitted, channels, ← count]) fun i inside among => ?_
  rw [List.getElem_zipWith, List.drop_of_length_le, List.append_nil]
  exact Nat.le_of_eq (equal _ (List.getElem_mem _))

omit [Elementary α] in
theorem emitted_nil {lines blocks : List (List α)} (gains : List α)
    (count : lines.length = blocks.length) (silent : ∀ xs ∈ blocks, xs = []) :
    emitted gains lines blocks = blocks ∧ List.zipWith Delay.remaining lines blocks = lines := by
  constructor
  · refine List.ext_getElem (by simp [emitted, count]) fun i inside among => ?_
    have none := silent _ (List.getElem_mem among)
    simp only [emitted, List.getElem_map, List.getElem_zipWith]
    rw [none]
    rfl
  · refine List.ext_getElem (by simp [count]) fun i inside _ => ?_
    rw [List.getElem_zipWith, silent _ (List.getElem_mem _)]
    exact List.append_nil _

omit [Arithmetic α] [Elementary α] in
theorem remaining_take_drop (n : Nat) (lines blocks : List (List α)) :
    List.zipWith Delay.remaining (List.zipWith Delay.remaining lines (blocks.map (List.take n)))
        (blocks.map (List.drop n)) = List.zipWith Delay.remaining lines blocks := by
  induction lines generalizing blocks with
  | nil => rfl
  | cons line lines ih =>
    cases blocks with
    | nil => rfl
    | cons xs blocks =>
      simp only [List.map_cons, List.zipWith_cons_cons, ih]
      rw [← Delay.remaining_append, List.take_append_drop]

omit [Elementary α] in
theorem meterReadings_cons (n : Nat) (sizes : List Nat) (front back : List (GainState α))
    (cut : front.length = n) :
    meterReadings (n :: sizes) (front ++ back) =
      Level.logToDecibel (GainState.deepest 0.0 front) :: meterReadings sizes back := by
  simp only [meterReadings, List.splitLengths_cons, List.map_cons, List.take_left' cut,
    List.drop_left' cut]

/-- Without any samples nothing changes. -/
theorem Carries.stream_nil {c : Compressor α} {f : Flow α} {lines blocks : List (List α)}
    {p : Parameters α} {signals : List (List α)} (carries : c.Carries p f lines)
    (equal : ∀ xs ∈ signals.take p.channels, xs.length = 0)
    (channels : lines.length = blocks.length) (cut : raised p (signals.take p.channels) = blocks) :
    signals = emitted (f.gains p (link 0 blocks)) lines blocks ++ signals.drop p.channels ∧
      c.Carries p (f.advance p (link 0 blocks)) (List.zipWith Delay.remaining lines blocks) := by
  have empty : ∀ xs ∈ blocks, xs.length = 0 := by
    rw [← cut]
    exact equal_raised equal
  have silent : ∀ xs ∈ blocks, xs = [] :=
    fun xs member => List.eq_nil_of_length_eq_zero (empty xs member)
  have linked : link 0 blocks = [] := List.eq_nil_of_length_eq_zero (length_link 0 blocks empty)
  obtain ⟨out, stay⟩ := emitted_nil (f.gains p []) channels silent
  have unraised : blocks = signals.take p.channels := by
    have count : blocks.length = (signals.take p.channels).length := by
      rw [← cut, raised, List.length_map]
    refine List.ext_getElem count fun i inside among => ?_
    rw [silent _ (List.getElem_mem inside)]
    exact (List.eq_nil_of_length_eq_zero (equal _ (List.getElem_mem among))).symm
  rw [linked, Flow.advance_nil, out, stay]
  constructor
  · rw [unraised, List.take_append_drop]
  · exact carries

/-- The calls together do what the flow does on the whole signals. -/
theorem Carries.stream {c : Compressor α} {f : Flow α} {lines blocks : List (List α)}
    {p : Parameters α} {sizes : List Nat} {signals : List (List α)}
    (carries : c.Carries p f lines) (bounded : ∀ n ∈ sizes, 1 ≤ n ∧ n ≤ blockLimit)
    (equal : ∀ xs ∈ signals.take p.channels, xs.length = sizes.sum)
    (used : signals.take p.channels ≠ []) (channels : lines.length = blocks.length)
    (cut : raised p (signals.take p.channels) = blocks) :
    ∃ c', c.stream? sizes signals = some (c',
        emitted (f.gains p (link sizes.sum blocks)) lines blocks ++ signals.drop p.channels,
        meterReadings sizes (f.states p (link sizes.sum blocks))) ∧
      c'.Carries p (f.advance p (link sizes.sum blocks))
        (List.zipWith Delay.remaining lines blocks) := by
  -- Each call carries the flow on, so the calls that remain start from where it has come to,
  -- with what is left of the signals and with the lines as they are by then.
  induction sizes generalizing c f lines blocks signals with
  | nil =>
    obtain ⟨same, carried⟩ := carries.stream_nil equal channels cut
    refine ⟨c, ?_, carried⟩
    rw [List.sum_nil, ← same]
    rfl
  | cons n sizes ih =>
    rw [List.sum_cons] at equal ⊢
    have long : ∀ xs ∈ blocks, xs.length = n + sizes.sum := by
      rw [← cut]
      exact equal_raised equal
    have taken : (signals.map (List.take n)).take p.channels =
        (signals.take p.channels).map (List.take n) := List.map_take.symm
    have dropped : (signals.map (List.drop n)).take p.channels =
        (signals.take p.channels).map (List.drop n) := List.map_take.symm
    have cutFront : raised p ((signals.map (List.take n)).take p.channels) =
        blocks.map (List.take n) := by
      rw [taken, raised_take, cut]
    have cutBack : raised p ((signals.map (List.drop n)).take p.channels) =
        blocks.map (List.drop n) := by
      rw [dropped, raised_drop, cut]
    have inside : lines.length = (blocks.map (List.take n)).length := by
      rw [List.length_map, channels]
    have remaining : (List.zipWith Delay.remaining lines (blocks.map (List.take n))).length =
        (blocks.map (List.drop n)).length := by
      rw [List.length_zipWith, List.length_map, List.length_map, channels, Nat.min_self]
    obtain ⟨c₁, processed, carried, meter⟩ := carries.processWhole
      (bounded n List.mem_cons_self) (by rw [taken]; exact equal_take equal)
      (by rw [taken]; simpa using used) inside cutFront
    obtain ⟨c₂, streamed, last⟩ := ih carried
      (fun m member => bounded m (List.mem_cons_of_mem _ member))
      (by rw [dropped]; exact equal_drop equal) (by rw [dropped]; simpa using used) remaining
      cutBack
    have size : (link n (blocks.map (List.take n))).length = n := length_link n _ (equal_take long)
    have gains : (f.gains p (link n (blocks.map (List.take n)))).length = n := by simp [size]
    have states : (f.states p (link n (blocks.map (List.take n)))).length = n := by simp [size]
    rw [link_add n sizes.sum blocks long, Flow.gains_append, Flow.states_append,
      Flow.advance_append, meterReadings_cons n sizes _ _ states]
    refine ⟨c₂, ?_, by rwa [remaining_take_drop] at last⟩
    rw [stream?, processed, Option.bind_eq_bind, Option.bind_some]
    dsimp only
    rw [streamed, Option.bind_eq_bind, Option.bind_some, meter,
      emitted_append gains long, List.zipWith_append, ← List.map_drop, ← List.map_drop,
      zipWith_take_drop]
    · rfl
    · simp only [emitted, List.length_map, List.length_zipWith]
      omega

end RealtimeAudio.Compressor
