import RealtimeAudio.Priority

/-! Requests for an elevated priority, one after another. A request goes along the strategies up to
the first that succeeds and calls each of those once, for one level; what a strategy answers may
depend on everything that was done before, by earlier requests too. -/
namespace RealtimeAudio

/-- A call of a strategy: its place in the list, and the level that was asked of it. -/
structure Attempt where
  place : Nat
  level : UInt8
deriving DecidableEq, Repr

variable {σ : Type}

namespace Strategy

/-- The same strategy, which also notes that it was called. -/
def noted (place : Nat) (strategy : Strategy σ) : Strategy (σ × List Attempt) where
  name := strategy.name
  elevate level := fun (s, attempts) =>
    let (answer, next) := (strategy.elevate level).run s
    (answer, next, attempts ++ [⟨place, level⟩])

/-- How things stand after all of some strategies were called in order. -/
def afterAll (level : UInt8) (strategies : List (Strategy σ)) (s : σ) : σ :=
  strategies.foldl (fun s strategy => ((strategy.elevate level).run s).2) s

/-- What the strategy at place `k` answers after those before it were called. -/
def answer? (level : UInt8) (strategies : List (Strategy σ)) (s : σ) (k : Nat) :
    Option (Except Fault Unit) :=
  strategies[k]?.map fun strategy =>
    ((strategy.elevate level).run (afterAll level (strategies.take k) s)).1

def Fails (level : UInt8) (strategies : List (Strategy σ)) (s : σ) (k : Nat) : Prop :=
  ∃ fault, answer? level strategies s k = some (.error fault)

/-- Calls of the strategies from place `first` on, each once and in order. -/
def attempts (level : UInt8) (first count : Nat) : List Attempt :=
  (List.range' first count).map (⟨·, level⟩)

/-- What trying strategies comes to, when their places are counted from `first`. -/
inductive Tried (level : UInt8) (first : Nat) (strategies : List (Strategy σ)) (s : σ) :
    PriorityOutcome → List Attempt → σ → Prop
  | elevated {k : Nat} {strategy : Strategy σ} : strategies[k]? = some strategy →
      (∀ j < k, Fails level strategies s j) → answer? level strategies s k = some (.ok ()) →
      Tried level first strategies s (.elevated strategy.name) (attempts level first (k + 1))
        (afterAll level (strategies.take (k + 1)) s)
  | unchanged : (∀ j < strategies.length, Fails level strategies s j) →
      Tried level first strategies s .unchanged (attempts level first strategies.length)
        (afterAll level strategies s)

section Cons
variable {level : UInt8} {strategy : Strategy σ} {rest : List (Strategy σ)} {s : σ}

theorem answer?_zero : answer? level (strategy :: rest) s 0 =
    some ((strategy.elevate level).run s).1 := rfl

theorem answer?_succ (k : Nat) : answer? level (strategy :: rest) s (k + 1) =
    answer? level rest ((strategy.elevate level).run s).2 k := by
  simp [answer?, afterAll]

theorem attempts_succ (first count : Nat) :
    attempts level first (count + 1) = ⟨first, level⟩ :: attempts level (first + 1) count := by
  simp [attempts, List.range'_succ]

/-- A first strategy that fails is called and then of no account. -/
theorem Tried.cons {first : Nat} {outcome : PriorityOutcome} {made : List Attempt} {last : σ}
    {fault : Fault} (failed : ((strategy.elevate level).run s).1 = .error fault)
    (tried : Tried level (first + 1) rest ((strategy.elevate level).run s).2 outcome made last) :
    Tried level first (strategy :: rest) s outcome (⟨first, level⟩ :: made) last := by
  have fails {k : Nat} (later : ∀ j < k, Fails level rest ((strategy.elevate level).run s).2 j) :
      ∀ j < k + 1, Fails level (strategy :: rest) s j := by
    intro j early
    cases j with
    | zero => exact ⟨fault, by rw [answer?_zero, failed]⟩
    | succ j => simpa only [Fails, answer?_succ] using later j (by omega)
  cases tried with
  | elevated listed before succeeds =>
    rw [← attempts_succ]
    exact .elevated listed (fails before) (by rwa [answer?_succ])
  | unchanged every =>
    rw [← attempts_succ]
    exact .unchanged (fails every)

end Cons

end Strategy

namespace PriorityRequest

/-- The same request, with every call noted. -/
def noted (r : PriorityRequest σ) : PriorityRequest (σ × List Attempt) where
  level := r.level
  strategies := r.strategies.mapIdx Strategy.noted

def requests (r : PriorityRequest σ) : (count : Nat) → StateM σ (List PriorityOutcome)
  | 0 => return []
  | count + 1 => do
    let outcome ← r.request
    return outcome :: (← r.requests count)

/-- Strategies are tried in the order in which they were added. -/
theorem foldl_withStrategy (r : PriorityRequest σ) (strategies : List (Strategy σ)) :
    strategies.foldl withStrategy r = ⟨r.level, r.strategies ++ strategies⟩ := by
  induction strategies generalizing r with
  | nil => rw [List.foldl_nil, List.append_nil]
  | cons strategy rest ih =>
    rw [List.foldl_cons, ih, withStrategy, List.append_assoc, List.singleton_append]

/-- What one request comes to: its outcome, the calls made and how things stand after it. -/
inductive Resolves (level : UInt8) (strategies : List (Strategy σ)) (s : σ) :
    PriorityOutcome → List Attempt → σ → Prop
  | skipped : level = 0 → Resolves level strategies s .skipped [] s
  | tried {outcome : PriorityOutcome} {attempts : List Attempt} {last : σ} : level ≠ 0 →
      Strategy.Tried (min level 49) 0 strategies s outcome attempts last →
      Resolves level strategies s outcome attempts last

/-- What requests come to one after another; each starts from how the one before left things, with
the level and the strategies that it had. -/
inductive ResolvesAll (level : UInt8) (strategies : List (Strategy σ)) :
    σ → List PriorityOutcome → List (List Attempt) → σ → Prop
  | none {s : σ} : ResolvesAll level strategies s [] [] s
  | next {s between last : σ} {outcome : PriorityOutcome} {outcomes : List PriorityOutcome}
      {made : List Attempt} {attempts : List (List Attempt)} :
      Resolves level strategies s outcome made between →
      ResolvesAll level strategies between outcomes attempts last →
      ResolvesAll level strategies s (outcome :: outcomes) (made :: attempts) last

section Each
variable {level : UInt8} {strategy : Strategy σ} {rest : List (Strategy σ)} {s next : σ}

theorem run_tryEach_ok (answer : (strategy.elevate level).run s = (.ok (), next)) :
    (tryEach level (strategy :: rest)).run s = (.elevated strategy.name, next) := by
  rw [tryEach, StateT.run_bind, answer]
  rfl

theorem run_tryEach_error {fault : Fault}
    (answer : (strategy.elevate level).run s = (.error fault, next)) :
    (tryEach level (strategy :: rest)).run s = (tryEach level rest).run next := by
  rw [tryEach, StateT.run_bind, answer]
  rfl

theorem run_noted (place : Nat) (before : List Attempt) {answer : Except Fault Unit}
    (called : (strategy.elevate level).run s = (answer, next)) :
    ((strategy.noted place).elevate level).run (s, before) =
      (answer, next, before ++ [⟨place, level⟩]) := by
  change (((strategy.elevate level).run s).1, ((strategy.elevate level).run s).2, _) = _
  rw [called]

end Each

/-- Trying strategies with every call noted, behind calls that were noted before; the notes change
nothing else. -/
theorem run_tryEach (level : UInt8) (first : Nat) (strategies : List (Strategy σ)) (s : σ)
    (before : List Attempt) : ∃ outcome attempts last,
      Strategy.Tried level first strategies s outcome attempts last ∧
      (tryEach level strategies).run s = (outcome, last) ∧
      (tryEach level (strategies.mapIdx fun i => Strategy.noted (first + i))).run (s, before) =
        (outcome, last, before ++ attempts) := by
  induction strategies generalizing first s before with
  | nil =>
    refine ⟨.unchanged, [], s, .unchanged (by simp), rfl, ?_⟩
    rw [List.append_nil]
    rfl
  | cons strategy rest ih =>
    have later : (fun i => Strategy.noted (σ := σ) (first + (i + 1))) =
        fun i => Strategy.noted (first + 1 + i) := by
      funext i
      rw [Nat.add_right_comm, Nat.add_assoc]
    rcases called : (strategy.elevate level).run s with ⟨answer, next⟩
    have noted := run_noted first before called
    rw [List.mapIdx_cons, Nat.add_zero, later]
    cases answer with
    | ok _ =>
      refine ⟨.elevated strategy.name, [⟨first, level⟩], next, ?_, run_tryEach_ok called,
        run_tryEach_ok noted⟩
      have succeeds : Strategy.answer? level (strategy :: rest) s 0 = some (.ok ()) := by
        rw [Strategy.answer?_zero, called]
      simpa [Strategy.attempts, Strategy.afterAll, called] using
        @Strategy.Tried.elevated σ level first (strategy :: rest) s 0 strategy rfl (by simp)
          succeeds
    | error fault =>
      obtain ⟨outcome, attempts, last, tried, plain, run⟩ :=
        ih (first + 1) next (before ++ [⟨first, level⟩])
      rw [run_tryEach_error called, run_tryEach_error noted]
      have failed : ((strategy.elevate level).run s).1 = .error fault := by rw [called]
      refine ⟨outcome, ⟨first, level⟩ :: attempts, last, .cons failed (by rwa [called]), plain, ?_⟩
      rw [run, List.append_assoc, List.singleton_append]

theorem run_request (r : PriorityRequest σ) (s : σ) (before : List Attempt) :
    ∃ outcome attempts last, Resolves r.level r.strategies s outcome attempts last ∧
      r.request.run s = (outcome, last) ∧
      r.noted.request.run (s, before) = (outcome, last, before ++ attempts) := by
  by_cases zero : r.level = 0
  · refine ⟨.skipped, [], s, .skipped zero, ?_, ?_⟩
    · rw [request, if_pos zero]
      rfl
    · rw [request, noted, if_pos zero, List.append_nil]
      rfl
  · obtain ⟨outcome, attempts, last, tried, plain, run⟩ :=
      run_tryEach (min r.level 49) 0 r.strategies s before
    simp only [Nat.zero_add] at run
    refine ⟨outcome, attempts, last, .tried zero tried, ?_, ?_⟩
    · rw [request, if_neg zero]
      exact plain
    · rw [request, noted, if_neg zero]
      exact run

/-- Nothing has changed exactly when something was tried and all of it failed. -/
theorem Resolves.unchanged_iff {level : UInt8} {strategies : List (Strategy σ)} {s last : σ}
    {outcome : PriorityOutcome} {attempts : List Attempt}
    (resolves : Resolves level strategies s outcome attempts last) :
    outcome = .unchanged ↔
      level ≠ 0 ∧ ∀ k < strategies.length, Strategy.Fails (min level 49) strategies s k := by
  cases resolves with
  | skipped zero => simp [zero]
  | tried nonzero tried =>
    cases tried with
    | @elevated k _ listed _ succeeds =>
      refine iff_of_false (by simp) fun ⟨_, every⟩ => ?_
      obtain ⟨fault, fails⟩ := every k (List.getElem?_eq_some_iff.mp listed).1
      rw [succeeds] at fails
      cases fails
    | unchanged every => exact iff_of_true rfl ⟨nonzero, every⟩

theorem run_requests (r : PriorityRequest σ) (count : Nat) (s : σ) (before : List Attempt) :
    ∃ outcomes attempts last, outcomes.length = count ∧
      ResolvesAll r.level r.strategies s outcomes attempts last ∧
      (r.requests count).run s = (outcomes, last) ∧
      (r.noted.requests count).run (s, before) = (outcomes, last, before ++ attempts.flatten) := by
  induction count generalizing s before with
  | zero =>
    refine ⟨[], [], s, rfl, .none, rfl, ?_⟩
    rw [List.flatten_nil, List.append_nil]
    rfl
  | succ count ih =>
    obtain ⟨outcome, made, between, resolves, plain, run⟩ := r.run_request s before
    obtain ⟨outcomes, attempts, last, size, all, rest, runs⟩ := ih between (before ++ made)
    refine ⟨outcome :: outcomes, made :: attempts, last, ?_, .next resolves all, ?_, ?_⟩
    · rw [List.length_cons, size]
    · rw [requests, StateT.run_bind, plain]
      change (r.requests count >>= fun outcomes => pure (outcome :: outcomes)).run between = _
      rw [StateT.run_bind, rest]
      rfl
    · rw [requests, StateT.run_bind, run]
      change (r.noted.requests count >>= fun outcomes => pure (outcome :: outcomes)).run
        (between, before ++ made) = _
      rw [StateT.run_bind, runs, List.flatten_cons, List.append_assoc]
      rfl

/-- However often a priority is asked for, each request tries the strategies in the order in which
they were added, each at most once and for a level within the limit, and stops at the first that
succeeds. It has changed nothing exactly when all of them fail. -/
theorem requests_resolve (level : UInt8) (strategies : List (Strategy σ)) (count : Nat) (s : σ) :
    let r := strategies.foldl withStrategy (empty level)
    (∃ outcomes attempts last, outcomes.length = count ∧
      ResolvesAll level strategies s outcomes attempts last ∧
      (r.requests count).run s = (outcomes, last) ∧
      (r.noted.requests count).run (s, []) = (outcomes, last, attempts.flatten)) ∧
    ((r.request.run s).1 = .unchanged ↔
      level ≠ 0 ∧ ∀ k < strategies.length, Strategy.Fails (min level 49) strategies s k) := by
  intro r
  have same : r = ⟨level, strategies⟩ := foldl_withStrategy (empty level) strategies
  obtain ⟨outcome, made, last, resolves, plain, -⟩ := r.run_request s []
  have all := r.run_requests count s []
  rw [same] at resolves all
  refine ⟨by rwa [same], ?_⟩
  rw [plain]
  exact resolves.unchanged_iff

end PriorityRequest

end RealtimeAudio
