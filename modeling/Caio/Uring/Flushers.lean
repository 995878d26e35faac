import Mathlib.Tactic.SplitIfs
import Caio.Lib.Transition
import Caio.Uring.Enter

/-!
# linux_uring: concurrent flush() calls

Threads of a free-threaded interpreter in `flush()` and `cancel()` of one
Context without SQPOLL. `flush()` reads `sq_tail` and `sq_head` one after the
other and outside the critical section, so that other threads may consume what
it has counted.
-/

namespace Caio.Uring

/-- Where a thread is in the code of `flush()` and `cancel()`. -/
inductive FlushPlace
  | idle
  /-- `flush()` between its two loads. -/
  | loaded (tail : UInt32)
  /-- `flush()` in its loop, after some calls of `io_uring_enter`. -/
  | entering (toSubmit remaining : UInt32) (calls : ℕ)
  /-- `cancel()` after its critical section. -/
  | cancelling
deriving DecidableEq, Repr

structure Flushers where
  ring : SqRing
  threads : ℕ → FlushPlace

namespace Flushers

def setThread (s : Flushers) (i : ℕ) (place : FlushPlace) : Flushers :=
  { s with threads := Function.update s.threads i place }

inductive Action
  | loadTail (i : ℕ)
  | loadHead (i : ℕ)
  | enter (i : ℕ)
  /-- The loop is over; `uring_drain_cq` does not touch the submission ring. -/
  | leave (i : ℕ)
  /-- The critical section of `cancel()`. -/
  | stage (i : ℕ) (p : OpPtr)
  /-- The `io_uring_enter` of `cancel()`. -/
  | handOver (i : ℕ)

/-- `io_uring_enter(to_submit=m)` takes the `min(m, staged)` oldest entries and returns their
number. -/
def step (s : Flushers) : Action → Option Flushers
  | .loadTail i => if s.threads i = .idle then some (s.setThread i (.loaded s.ring.tail)) else none
  | .loadHead i =>
    match s.threads i with
    | .loaded tail =>
      -- other threads may have moved the head since the tail was read
      let toSubmit := tail - s.ring.head
      some (s.setThread i (if toSubmit = 0 then .idle else .entering toSubmit toSubmit 0))
    | _ => none
  | .enter i =>
    match s.threads i with
    | .entering toSubmit remaining calls =>
      if remaining = 0 then none
      else
        let r := s.ring.enter remaining.toNat
        some { s.setThread i
            (.entering toSubmit (remaining - UInt32.ofNat r.1.length) (calls + 1)) with
          ring := r.2 }
    | _ => none
  | .leave i =>
    match s.threads i with
    | .entering _ 0 _ => some (s.setThread i .idle)
    | _ => none
  | .stage i p =>
    if s.threads i = .idle then
      match cancelStage s.ring p with
      | .error _ => some s
      | .ok ring => some { s.setThread i .cancelling with ring }
    else none
  | .handOver i =>
    if s.threads i = .cancelling then
      some { s.setThread i .idle with ring := (s.ring.enter 1).2 }
    else none

def system : TransitionSystem Flushers Action where
  init s := ∀ i, s.threads i = .idle
  step := step

/-- Every `io_uring_enter` of the flush of thread `i` finds an SQE. -/
def FindsStaged (i : ℕ) (s : Flushers) (a : Action) : Prop := a = .enter i → s.ring.staged ≠ 0

/-- The calls that a flush has made and the entries it still means to hand over. -/
def Within (i : ℕ) (s : Flushers) : Prop :=
  ∀ toSubmit remaining calls, s.threads i = .entering toSubmit remaining calls →
    calls + remaining.toNat ≤ toSubmit.toNat

def Counted (s : Flushers) : Prop :=
  ∀ i toSubmit remaining calls, s.threads i = .entering toSubmit remaining calls →
    remaining.toNat ≤ toSubmit.toNat

variable {i j : ℕ} {s t : Flushers} {toSubmit remaining : UInt32} {calls : ℕ}

theorem setThread_self (s : Flushers) (i : ℕ) (place : FlushPlace) :
    (s.setThread i place).threads i = place := Function.update_self ..

theorem setThread_ne (s : Flushers) (place : FlushPlace) (hne : j ≠ i) :
    (s.setThread i place).threads j = s.threads j := Function.update_of_ne hne ..

theorem remaining_sub (r : SqRing) (remaining : UInt32) :
    (remaining - UInt32.ofNat (r.enter remaining.toNat).1.length).toNat =
      remaining.toNat - min remaining.toNat r.staged := by
  have hlt := remaining.toNat_lt
  have hof : (UInt32.ofNat (r.enter remaining.toNat).1.length).toNat =
      min remaining.toNat r.staged := by
    rw [(r.enter_spec _).1, UInt32.toNat_ofNat', Nat.mod_eq_of_lt (by omega)]
  rw [UInt32.toNat_sub_of_le _ _ (UInt32.le_iff_toNat_le.mpr (by omega)), hof]

/-- A thread that is in the loop of `flush()` has just entered it, has made a call, or was there
before. -/
theorem step_entering {a : Action} (hs : s.step a = some t)
    (ht : t.threads i = .entering toSubmit remaining calls) :
    (remaining = toSubmit ∧ calls = 0) ∨
    (∃ before calls', a = .enter i ∧ s.threads i = .entering toSubmit before calls' ∧
      before ≠ 0 ∧ calls = calls' + 1 ∧
      remaining.toNat = before.toNat - min before.toNat s.ring.staged) ∨
    s.threads i = .entering toSubmit remaining calls := by
  -- a step of thread `j` that leaves the loop says nothing of thread `i`
  have hother : ∀ {j : ℕ} {place : FlushPlace} {ring : SqRing},
      (∀ n m k, place ≠ .entering n m k) → t = { s.setThread j place with ring } →
        s.threads i = .entering toSubmit remaining calls := by
    rintro j place ring hplace rfl
    by_cases hij : i = j
    · subst hij
      rw [show _ = place from setThread_self s i place] at ht
      exact absurd ht (hplace _ _ _)
    · rwa [show _ = s.threads i from setThread_ne s place hij] at ht
  cases a with
  | loadTail j =>
    obtain ⟨-, hs⟩ := Option.ite_none_right_eq_some.mp hs
    cases hs
    exact .inr (.inr (hother (by simp) rfl))
  | loadHead j =>
    simp only [step] at hs
    split at hs
    · cases hs
      by_cases hij : i = j
      · subst hij
        rw [setThread_self] at ht
        split_ifs at ht
        cases ht
        exact .inl ⟨rfl, rfl⟩
      · rw [setThread_ne _ _ hij] at ht
        exact .inr (.inr ht)
    · cases hs
  | enter j =>
    simp only [step] at hs
    split at hs
    case h_1 n before k hj =>
      split_ifs at hs with hzero
      cases hs
      by_cases hij : i = j
      · subst hij
        rw [show _ = FlushPlace.entering n _ (k + 1) from setThread_self ..] at ht
        cases ht
        exact .inr (.inl ⟨before, k, rfl, hj, hzero, rfl, remaining_sub ..⟩)
      · rw [show _ = s.threads i from setThread_ne _ _ hij] at ht
        exact .inr (.inr ht)
    case h_2 => cases hs
  | leave j =>
    simp only [step] at hs
    split at hs
    · cases hs
      exact .inr (.inr (hother (by simp) rfl))
    · cases hs
  | stage j p =>
    obtain ⟨-, hs⟩ := Option.ite_none_right_eq_some.mp hs
    split at hs <;> cases hs
    · exact .inr (.inr ht)
    · exact .inr (.inr (hother (by simp) rfl))
  | handOver j =>
    obtain ⟨-, hs⟩ := Option.ite_none_right_eq_some.mp hs
    cases hs
    exact .inr (.inr (hother (by simp) rfl))

theorem Within.step (h : Within i s) {a : Action} (hfinds : FindsStaged i s a)
    (hs : s.step a = some t) : Within i t := by
  intro toSubmit remaining calls ht
  obtain ⟨rfl, rfl⟩ | ⟨before, calls', ha, hbefore, hne, rfl, hrem⟩ | hsame := step_entering hs ht
  · exact (Nat.zero_add _).le
  · have hold := h _ _ _ hbefore
    -- a call that finds an SQE pays for itself with one entry of `remaining`
    have hstaged := hfinds ha
    have hpos : before.toNat ≠ 0 := fun h0 => hne (UInt32.toNat_inj.mp h0)
    omega
  · exact h _ _ _ hsame

theorem Counted.step (h : Counted s) {a : Action} (hs : s.step a = some t) : Counted t := by
  intro i toSubmit remaining calls ht
  obtain ⟨rfl, -⟩ | ⟨before, _, -, hbefore, -, -, hrem⟩ | hsame := step_entering hs ht
  · exact le_rfl
  · have hold := h _ _ _ _ hbefore
    omega
  · exact h _ _ _ _ hsame

/-- On an empty ring a call changes nothing but its own count, and can be made again. -/
theorem enter_empty (hi : s.threads i = .entering toSubmit remaining calls) (hne : remaining ≠ 0)
    (hempty : s.ring.staged = 0) :
    s.step (.enter i) = some (s.setThread i (.entering toSubmit remaining (calls + 1))) := by
  have hring : s.ring.enter remaining.toNat = ([], s.ring) := by
    cases remaining.toNat with
    | zero => rfl
    | succ m => rw [SqRing.enter, SqRing.consume_none (SqRing.staged_eq_zero.mp hempty)]
  simp only [step, hi, if_neg hne, hring]
  rw [show UInt32.ofNat ([] : List (UInt32 × Sqe)).length = 0 from rfl, UInt32.sub_zero]
  rfl

theorem spins (hi : s.threads i = .entering toSubmit remaining calls) (hne : remaining ≠ 0)
    (hempty : s.ring.staged = 0) (m : ℕ) :
    ∃ t, system.exec s (List.replicate m (.enter i)) = some t ∧
      t.threads i = .entering toSubmit remaining (calls + m) := by
  -- the ring stays empty, so a call leaves the situation of the one before, but for the count
  induction m generalizing s calls with
  | zero => exact ⟨s, rfl, hi⟩
  | succ m ih =>
    obtain ⟨t, ht, hplace⟩ := ih
      (s := s.setThread i (.entering toSubmit remaining (calls + 1))) (setThread_self ..) hempty
    refine ⟨t, ?_, by rw [hplace, Nat.add_assoc, Nat.add_comm 1]⟩
    have hstep : system.step s (.enter i) = some _ := enter_empty hi hne hempty
    rw [List.replicate_succ, TransitionSystem.exec_cons hstep]
    exact ht

/-- A flush whose calls of `io_uring_enter` all find an SQE makes at most `to_submit` of them; one
that finds the ring empty can go on for ever. In every run `remaining` stays between zero and
`to_submit`, as no call returns more than it was asked for. -/
theorem flush_terminates (i : ℕ) :
    (∀ s, system.ReachableBy (FindsStaged i) s → Within i s) ∧
    (∀ s toSubmit remaining calls, system.Reachable s →
      s.threads i = .entering toSubmit remaining calls →
        remaining ≤ toSubmit ∧ (s.ring.enter remaining.toNat).1.length ≤ remaining.toNat ∧
        (remaining ≠ 0 → s.ring.staged = 0 → ∀ m, ∃ t,
          system.exec s (List.replicate m (.enter i)) = some t ∧
            t.threads i = .entering toSubmit remaining (calls + m))) := by
  refine ⟨fun s hs => ?_, fun s toSubmit remaining calls hs hi => ⟨?_, ?_, spins hi⟩⟩
  · refine hs.invariant (fun s hidle => ?_) fun s a t h hfinds hstep => h.step hfinds hstep
    intro toSubmit remaining calls hi
    rw [hidle i] at hi
    cases hi
  · have hcount : Counted s := by
      refine hs.invariant (fun s hidle => ?_) fun s a t h _ hstep => h.step hstep
      intro i toSubmit remaining calls hi
      rw [hidle i] at hi
      cases hi
    exact UInt32.le_iff_toNat_le.mpr (hcount i _ _ _ hi)
  · rw [(s.ring.enter_spec _).1]
    exact Nat.min_le_left ..

def oneStaged : Flushers :=
  ⟨(SqKernel.emptyRing.put 0 { opcode := .fsync, userData := 16 }).publish 1, fun _ => .idle⟩

theorem flush_terminates_single :
    ∃ s, system.exec oneStaged [.loadTail 0, .loadHead 0, .enter 0] = some s ∧
      s.threads 0 = .entering 1 0 1 ∧ Within 0 s := by
  have hrun : ((system.exec oneStaged [.loadTail 0, .loadHead 0, .enter 0]).any fun s =>
      s.threads 0 == .entering 1 0 1) = true := by decide +kernel
  obtain ⟨s, hs, hplace⟩ := (Option.any_eq_true _ _).mp hrun
  refine ⟨s, hs, beq_iff_eq.mp hplace, (flush_terminates 0).1 s ?_⟩
  refine TransitionSystem.ReachableBy.exec (.init fun _ => rfl) ?_ hs
  refine ⟨?_, ?_, ?_, trivial⟩
  · intro h
    cases h
  · intro h
    cases h
  · intro _
    decide +kernel

def twoFlushes : List Action :=
  [.loadTail 0, .loadTail 1, .loadHead 0, .loadHead 1, .enter 0, .leave 0]

/-- The second is left with nothing to hand over, and goes on calling. -/
theorem second_flush_spins :
    ¬∀ (s t : Flushers) (as : List Action) (i : ℕ), system.init s → system.exec s as = some t →
      ∃ m, system.exec t (List.replicate m (.enter i)) = none := by
  intro h
  have hrun : ((system.exec oneStaged twoFlushes).any fun t =>
      t.threads 1 == .entering 1 1 0 && t.ring.staged == 0) = true := by decide +kernel
  obtain ⟨t, ht, hstate⟩ := (Option.any_eq_true _ _).mp hrun
  obtain ⟨hplace, hempty⟩ := Bool.and_eq_true_iff.mp hstate
  obtain ⟨m, hm⟩ := h _ _ _ 1 (fun _ => rfl) ht
  obtain ⟨u, hu, -⟩ := spins (beq_iff_eq.mp hplace) (by decide) (beq_iff_eq.mp hempty) m
  rw [hu] at hm
  cases hm

end Flushers

end Caio.Uring
