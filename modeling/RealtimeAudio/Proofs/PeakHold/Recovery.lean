import RealtimeAudio.Proofs.PeakHold.Entries
import RealtimeAudio.Proofs.PeakHold.Maximum

/-! A peak hold among samples that are no numbers. Such a sample neither drops entries nor is
dropped, so the entries before it need not descend, and a number that reaches the front drops
larger ones with it. This ends when the last entry before it has left. While the start value is the
front, it is replaced by the first number. Without one it leaves together with the first sample,
and as one entry leaves for each sample, the front is late by one until a number reaches it. -/
namespace RealtimeAudio
open Arithmetic (Compared Ordered Greatest)

namespace Window
variable {α : Type} [Arithmetic α] {Number : α → Prop}
variable {length late start sure : Nat} {samples earlier : List α} {x : α}

/-- The start value has made way for samples: for a number among the first of them, or at the end of
its time, by a front that may be late. -/
def Begun (Number : α → Prop) (length late : Nat) (samples : List α) : Prop :=
  (∃ x ∈ samples.take length, Number x) ∨ 1 ≤ late ∧ length < samples.length

section Idle

omit [Arithmetic α] in
theorem expire_of_lt {w : Window α} {position : Nat} (before : position < w.front.expiry) :
    w.expire position = w := by
  obtain ⟨front, later⟩ := w
  cases later with
  | nil => rfl
  | cons second rest => exact if_neg (Nat.not_le.mpr before)

/-- Samples that are no numbers drop nothing, nor the start value. -/
theorem feed_idle (order : Compared α Number) (lost : ∀ x ∈ samples, ¬Number x)
    (short : samples.length ≤ length) :
    ((initial length).feed length 0 samples).1 =
      ⟨⟨Arithmetic.bottom, length⟩, samples.mapIdx fun s x => ⟨x, s + length⟩⟩ := by
  induction samples using List.reverseRecOn with
  | nil => rfl
  | append_singleton earlier x ih =>
    have size : earlier.length < length := by simpa using short
    have incomparable (y : α) : ¬y ≤ x := fun below => lost x (by simp) (order.numbers below).2
    have stays : (earlier.mapIdx fun s x => (⟨x, s + length⟩ : Held α)).rdropWhile
        (fun e => e.value ≤ x) = earlier.mapIdx fun s x => ⟨x, s + length⟩ := by
      rw [List.rdropWhile_eq_self_iff]
      intro _ dropped
      exact incomparable _ (by simpa using dropped)
    simp only [feed_snoc, Nat.zero_add]
    rw [ih (fun y member => lost y (by simp [member])) size.le, update, expire_of_lt size, push,
      if_neg (incomparable _), stays, List.mapIdx_concat]

omit [Arithmetic α] in
/-- The first sample as front, late by one as it is past the start value. -/
theorem follows_idle (some : samples ≠ []) (whole : samples.length = length) (tardy : 1 ≤ late)
    (bottom : α) :
    Follows length late samples (length + 1)
      ((⟨⟨bottom, length⟩, samples.mapIdx fun s x => ⟨x, s + length⟩⟩ : Window α).expire
        length) := by
  obtain ⟨y, ys, rfl⟩ := List.exists_cons_of_ne_nil some
  have entries : ((⟨⟨bottom, length⟩, (y :: ys).mapIdx fun s x => ⟨x, s + length⟩⟩ :
      Window α).expire length).entries = (y :: ys).mapIdx fun s x => ⟨x, s + length⟩ := by
    rw [List.mapIdx_cons]
    simp only [Window.expire, le_refl, if_true, Window.entries]
  constructor
  case sampled =>
    intro e member
    rw [entries, List.mem_mapIdx] at member
    obtain ⟨s, inside, rfl⟩ := member
    exact ⟨s, rfl, List.getElem?_eq_getElem inside⟩
  case expiries =>
    rw [entries, List.pairwise_iff_getElem]
    intro i j _ _ before
    rw [List.getElem_mapIdx, List.getElem_mapIdx]
    exact Nat.add_lt_add_right before length
  case current =>
    rw [List.mapIdx_cons]
    simp only [Window.expire, le_refl, if_true]
    omega

end Idle

/-- With one more sample, either the entries that outlive it are samples, or it is the first number and
replaces the start value. -/
theorem expire_follows_or_alone (order : Ordered α Number) (long : 2 ≤ length)
    (begun : Begun Number length late (earlier ++ [x]))
    (before : Begun Number length late earlier →
      Follows length late earlier earlier.length ((initial length).feed length 0 earlier).1) :
    Follows length late earlier (earlier.length + 1)
        (((initial length).feed length 0 earlier).1.expire earlier.length) ∨
      Number x ∧ (∀ y ∈ earlier, ¬Number y) ∧
        ((initial length).feed length 0 earlier).1.update length earlier.length x =
          ⟨⟨x, earlier.length + length⟩, []⟩ := by
  by_cases started : Begun Number length late earlier
  · exact Or.inl ((before started).expire ((timely_feed long earlier).lasts long))
  · have lost : ∀ y ∈ earlier.take length, ¬Number y := fun y member number =>
      started (Or.inl ⟨y, member, number⟩)
    have short : earlier.length ≤ length ∨ late = 0 := by
      by_contra beyond
      exact started (Or.inr (by omega))
    rcases begun with ⟨y, member, number⟩ | ⟨tardy, past⟩
    · by_cases full : length ≤ earlier.length
      · rw [List.take_append_of_le_length full] at member
        exact absurd number (lost y member)
      · rw [List.take_of_length_le (by omega)] at lost
        have first : y = x := by
          rcases List.mem_append.mp (List.mem_of_mem_take member) with old | new
          · exact absurd number (lost y old)
          · exact List.mem_singleton.mp new
        subst first
        refine Or.inr ⟨number, lost, ?_⟩
        rw [feed_idle order.toCompared lost (by omega), update, expire_of_lt (Nat.not_le.mp full)]
        exact if_pos (order.bottom_le number)
    · have whole : earlier.length = length := by
        rw [List.length_append, List.length_singleton] at past
        omega
      rw [List.take_of_length_le whole.le] at lost
      rw [feed_idle order.toCompared lost whole.le, whole]
      exact Or.inl (follows_idle (List.ne_nil_of_length_pos (by omega)) whole tardy _)

theorem feed_follows (order : Ordered α Number) (long : 2 ≤ length)
    (begun : Begun Number length late samples) :
    Follows length late samples samples.length ((initial length).feed length 0 samples).1 := by
  induction samples using List.reverseRecOn with
  | nil => simp [Begun] at begun
  | append_singleton earlier x ih =>
    rw [feed_snoc, Nat.zero_add, List.length_append, List.length_singleton]
    rcases expire_follows_or_alone order long begun ih with follows | ⟨-, -, alone⟩
    · exact follows.push x (by omega)
    · dsimp only
      rw [alone]
      exact .alone (by omega)

omit [Arithmetic α] in
theorem Begun.of_snoc (begun : Begun Number length late (earlier ++ [x])) {s : Nat} {y : α}
    (found : earlier[s]? = some y) (number : Number y) : Begun Number length late earlier := by
  obtain ⟨inside, rfl⟩ := List.getElem?_eq_some_iff.mp found
  by_cases soon : s < length
  · exact Or.inl ⟨_, List.mem_take_iff_getElem.mpr ⟨s, by omega, rfl⟩, number⟩
  · rcases begun with ⟨z, member, other⟩ | ⟨tardy, -⟩
    · rw [List.take_append_of_le_length (by omega)] at member
      exact Or.inl ⟨z, member, other⟩
    · exact Or.inr ⟨tardy, by omega⟩

/-- Where the sample before `start` is no number, a front that is older still is reached for the last
time `length + late - 3` samples after `start`. -/
theorem Follows.front_safe (order : Compared α Number)
    (spoilt : ∀ y, samples[start - 1]? = some y → ¬Number y) {w : Window α}
    (follows : Follows length late samples (samples.length + 1) w) (reached : w.front.value ≤ x) :
    start + length ≤ w.front.expiry ∨ samples.length ≤ start + (length + late - 3) := by
  obtain ⟨s, expiry, found⟩ := follows.sampled w.front List.mem_cons_self
  have current := follows.current
  have apart : s ≠ start - 1 := by
    rintro rfl
    exact spoilt _ found (order.numbers reached).1
  omega

theorem feed_settled (order : Ordered α Number) (long : 2 ≤ length)
    (begun : Begun Number length late samples)
    (numbers : ∀ s x, start ≤ s → samples[s]? = some x → Number x) (covers : start ≤ sure)
    (safe : start = 0 ∨ start + (length + late - 3) ≤ sure ∧
      ∀ y, samples[start - 1]? = some y → ¬Number y)
    (reaches : start < samples.length) :
    Settled length late start sure samples samples.length
      ((initial length).feed length 0 samples).1 := by
  induction samples using List.reverseRecOn with
  | nil => exact absurd reaches (Nat.not_lt_zero _)
  | append_singleton earlier x ih =>
    have older {s : Nat} {y : α} (found : earlier[s]? = some y) : (earlier ++ [x])[s]? = some y :=
      getElem?_snoc_iff.mpr (Or.inl found)
    have before : ∀ s y, start ≤ s → earlier[s]? = some y → Number y :=
      fun s y after found => numbers s y after (older found)
    rw [List.length_append, List.length_singleton, Nat.lt_succ_iff] at reaches
    have number : Number x := numbers earlier.length x reaches (by simp)
    have safeBefore : start = 0 ∨ start + (length + late - 3) ≤ sure ∧
        ∀ y, earlier[start - 1]? = some y → ¬Number y :=
      safe.imp_right fun spoilt => ⟨spoilt.1, fun y found => spoilt.2 y (older found)⟩
    rw [feed_snoc, Nat.zero_add, List.length_append, List.length_singleton]
    rcases expire_follows_or_alone order long begun (feed_follows order long) with
      follows | ⟨-, lost, alone⟩
    · have settled : Settled length late start sure earlier (earlier.length + 1)
          (((initial length).feed length 0 earlier).1.expire earlier.length) := by
        by_cases newest : earlier.length ≤ start
        · exact follows.settled newest covers
        · rw [Nat.not_le] at newest
          have found := List.getElem?_eq_getElem newest
          have started := begun.of_snoc found (before start _ le_rfl found)
          exact (ih started before safeBefore newest).expire ((timely_feed long earlier).lasts long)
      refine settled.push order.toCompared before number (by omega) fun reached => ?_
      rcases safeBefore with rfl | ⟨covered, spoilt⟩
      · exact Or.inl (follows.since_start List.mem_cons_self)
      · exact (follows.front_safe order.toCompared spoilt reached).imp_right
          fun soon => soon.trans covered
    · have first : earlier.length ≤ start := by
        by_contra inside
        have found := List.getElem?_eq_getElem (Nat.not_le.mp inside)
        exact lost _ (List.getElem_mem _) (before start _ le_rfl found)
      dsimp only
      rw [alone]
      exact .alone order.toCompared number (by omega) (first.trans covers)

omit [Arithmetic α] in
/-- The position after the last sample that is no number. -/
theorem exists_start (Number : α → Prop) (samples : List α) :
    ∃ start, (∀ s x, start ≤ s → samples[s]? = some x → Number x) ∧
      (start = 0 ∨ ∃ y, samples[start - 1]? = some y ∧ ¬Number y) := by
  induction samples using List.reverseRecOn with
  | nil => exact ⟨0, by simp, Or.inl rfl⟩
  | append_singleton earlier x ih =>
    by_cases number : Number x
    · obtain ⟨start, numbers, spoilt⟩ := ih
      refine ⟨start, ?_, spoilt.imp_right ?_⟩
      · intro s y after found
        rcases getElem?_snoc_iff.mp found with old | ⟨-, rfl⟩
        · exact numbers s y after old
        · exact number
      · rintro ⟨y, found, lost⟩
        exact ⟨y, getElem?_snoc_iff.mpr (Or.inl found), lost⟩
    · refine ⟨earlier.length + 1, ?_, Or.inr ⟨x, by simp, number⟩⟩
      intro s y after found
      have inside := (List.getElem?_eq_some_iff.mp found).1
      simp only [List.length_append, List.length_singleton] at inside
      omega

/-- Nothing but numbers for long enough, and no sample of the window is above the front. -/
theorem feed_above (order : Ordered α Number) (long : 2 ≤ length)
    (begun : Begun Number length late samples)
    (numbers : ∀ x ∈ samples.drop (samples.length - (length + max late (length + late - 3))),
      Number x) :
    ∀ y ∈ samples.drop (samples.length - length),
      y ≤ ((initial length).feed length 0 samples).1.peak := by
  obtain ⟨start, after, spoilt⟩ := exists_start Number samples
  have follows := feed_follows order long begun
  have filled : 0 < samples.length := by
    by_contra none
    obtain rfl : samples = [] := List.eq_nil_of_length_eq_zero (by omega)
    simp [Begun] at begun
  rcases spoilt with rfl | ⟨z, found, lost⟩
  · have settled : Settled length late 0 0 samples samples.length _ :=
      feed_settled order long begun after le_rfl (Or.inl rfl) filled
    exact settled.above order.toCompared after (follows.since_start List.mem_cons_self)
      (Nat.zero_le _)
  · have recent : start + (length + max late (length + late - 3)) ≤ samples.length := by
      by_contra recent
      exact lost (numbers z (mem_drop_of_getElem? found (by omega)))
    have spoilt : ∀ y, samples[start - 1]? = some y → ¬Number y := by
      intro y same
      rwa [← Option.some.inj (found.symm.trans same)]
    have settled := feed_settled order long begun after (Nat.le_add_right _ _)
      (Or.inr ⟨le_rfl, spoilt⟩) (by omega)
    have current := follows.current
    exact settled.above order.toCompared after (by omega) (by omega)

/-- What a hold of the given length gives at position `t` when some samples are no numbers. -/
structure Recovers (Number : α → Prop) (length t : Nat) (samples : List α) (peak : α) : Prop where
  /-- The start value, until there is a number. -/
  unstarted : t < length → (∀ x ∈ samples.take (t + 1), ¬Number x) → peak = Arithmetic.bottom
  belated : length ≤ t → peak ∈ recent (length + 1) t samples
  above : (∀ x ∈ recent (length + max 1 (length - 2)) t samples, Number x) →
    ∀ y ∈ recent length t samples, y ≤ peak
  member : (∃ x ∈ samples.take (min length (t + 1)), Number x) → peak ∈ recent length t samples
  greatest : (∃ x ∈ samples.take (min length (t + 1)), Number x) →
    (∀ x ∈ recent (length + (length - 3)) t samples, Number x) →
      Greatest peak (recent length t samples)

theorem feed_recovers (order : Ordered α Number) (long : 2 ≤ length) (samples : List α) (t : Nat)
    (inside : t < ((initial length).feed length 0 samples).2.length) :
    Recovers Number length t samples ((initial length).feed length 0 samples).2[t] := by
  have place : t < samples.length := by rwa [length_feed] at inside
  have count : (samples.take (t + 1)).length = t + 1 := by
    rw [List.length_take]
    omega
  have window (k : Nat) : recent k t samples =
      (samples.take (t + 1)).drop ((samples.take (t + 1)).length - k) := by
    rw [count, recent]
  have early {late : Nat} (number : ∃ x ∈ samples.take (min length (t + 1)), Number x) :
      Begun Number length late (samples.take (t + 1)) := by
    rw [← List.take_take] at number
    exact Or.inl number
  have latest : (samples.take (t + 1))[t]? = some samples[t] := by
    rw [List.getElem?_take_of_lt (Nat.lt_succ_self t), List.getElem?_eq_getElem place]
  have passed (full : length ≤ t) : Begun Number length 1 (samples.take (t + 1)) :=
    Or.inr ⟨le_rfl, by omega⟩
  rw [getElem_feed]
  constructor
  case unstarted =>
    intro short lost
    rw [feed_idle order.toCompared lost (by omega)]
    rfl
  case belated =>
    intro full
    rw [window]
    exact (feed_follows order long (passed full)).peak_mem
  case above =>
    intro numbers
    have begun : Begun Number length 1 (samples.take (t + 1)) := by
      by_cases full : length ≤ t
      · exact passed full
      · have number := numbers samples[t] (mem_drop_of_getElem? latest (by omega))
        refine early ⟨samples[t], ?_, number⟩
        rw [Nat.min_eq_right (Nat.not_le.mp full)]
        exact List.mem_of_getElem? latest
    rw [window] at numbers ⊢
    exact feed_above order long begun numbers
  case member =>
    intro number
    rw [window]
    have follows : Follows length 0 _ _ _ := feed_follows order long (early number)
    exact follows.peak_mem
  case greatest =>
    intro number numbers
    rw [window] at numbers ⊢
    rw [← Nat.zero_max (length - 3)] at numbers
    have follows : Follows length 0 _ _ _ := feed_follows order long (early number)
    exact ⟨follows.peak_mem, feed_above order long (early number) numbers⟩

end Window

namespace PeakHold

/-- However the samples are cut into blocks, a hold finds back to the maxima after samples that are no
numbers. -/
theorem blocks_recover (length : Nat) (blocks : List (List Float32)) :
    ∃ h peaks, (PeakHold.new length).blocks? blocks = some (h, peaks) ∧
      peaks.length = blocks.flatten.length ∧
      ∀ t (inside : t < peaks.length),
        Window.Recovers Single.Number (span length) t blocks.flatten peaks[t] := by
  have start : (PeakHold.new length : PeakHold Float32).Tracks 0 0 _ := Tracks.new length
  obtain ⟨h, done, -, -⟩ := start.blocks blocks
  exact ⟨h, _, done, Window.length_feed _ _ _ _,
    Window.feed_recovers Single.ordered start.long blocks.flatten⟩

theorem blocks_recover_after : ∃ h peaks,
    (PeakHold.new 4).blocks? [[5.0, 1.0, 0.0 / 0.0], [3.0, 2.0, 0.0, 0.0, (0.0 : Float32)]] =
      some (h, peaks) ∧
    ∃ last, peaks[7]? = some last ∧ Greatest last [2.0, 0.0, 0.0, (0.0 : Float32)] := by
  obtain ⟨h, peaks, done, count, recovers⟩ :=
    blocks_recover 4 [[5.0, 1.0, 0.0 / 0.0], [3.0, 2.0, 0.0, 0.0, (0.0 : Float32)]]
  have count : peaks.length = 8 := count
  exact ⟨h, peaks, done, peaks[7], List.getElem?_eq_getElem _,
    (recovers 7 (by omega)).greatest ⟨5.0, List.mem_cons_self, by decide +kernel⟩ (by decide +kernel)⟩

/-- One sample earlier the last four are numbers too, but their maximum, 3, has been dropped by the 2
together with the older front 1. -/
example : ((PeakHold.new 4).blocks?
    [[5.0, 1.0, 0.0 / 0.0], [3.0, 2.0, 0.0, (0.0 : Float32)]]).map Prod.snd =
      some [5.0, 5.0, 5.0, 5.0, 2.0, 2.0, 2.0] := by decide +kernel

end PeakHold

end RealtimeAudio
