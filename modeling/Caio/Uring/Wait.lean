import Mathlib.Algebra.Order.Ring.Int
import Mathlib.Tactic.SplitIfs
import Caio.Uring.Posts

namespace Caio.Uring

/-- `struct timespec` of `CLOCK_MONOTONIC` -/
structure Timespec where
  sec : ℤ
  nsec : ℕ
  nsec_lt : nsec < 1000000000

namespace Timespec

def nanos (t : Timespec) : ℤ := t.sec * 1000000000 + t.nsec

def addSec (t : Timespec) (tvSec : Int32) : Timespec := { t with sec := t.sec + tvSec.toInt }

def remainingMs (deadline now : Timespec) : ℤ :=
  (deadline.sec - now.sec) * 1000 + ((deadline.nsec : ℤ) - now.nsec).tdiv 1000000

/-- The division truncates towards zero, but it never gives up a whole millisecond. -/
theorem left_lt_of_remainingMs {deadline now : Timespec} (h : deadline.remainingMs now ≤ 0) :
    deadline.nanos - now.nanos < 1000000 := by
  have hd := deadline.nsec_lt
  have hn := now.nsec_lt
  unfold remainingMs at h
  unfold nanos
  by_cases hpos : (0 : ℤ) ≤ (deadline.nsec : ℤ) - now.nsec
  · rw [Int.tdiv_eq_ediv_of_nonneg hpos] at h
    omega
  · have hneg : ((deadline.nsec : ℤ) - now.nsec).tdiv 1000000 =
        -(-((deadline.nsec : ℤ) - now.nsec) / 1000000) := by
      rw [← Int.tdiv_eq_ediv_of_nonneg (by omega), Int.neg_tdiv, Int.neg_neg]
    omega

end Timespec

/-- A round of the wait loop with the reading of the clock that its deadline check takes. -/
structure TimedTurn where
  enter : Syscall
  after : List KernelStep
  now : Timespec
  poll : Syscall

def expired (deadline : Option Timespec) (now : Timespec) : Bool :=
  deadline.any fun d => d.remainingMs now ≤ 0

def TimedTurn.turn (deadline : Option Timespec) (r : TimedTurn) : Turn :=
  ⟨r.enter, r.after, expired deadline r.now, r.poll⟩

/-- How the loop ends. -/
inductive WaitEnd
  /-- `tail - head >= min_requests` -/
  | ready
  | timeUp (now : Timespec)
  | failed (errno : Int32)

def WaitEnd.errno : WaitEnd → Option Int32
  | .failed errno => some errno
  | _ => none

namespace World

variable (c : CtxId) (minRequests : UInt32) (deadline : Option Timespec)

/-- A round after its first look at the ring; `none` for another round. -/
def timedRound (s : World) (turn : TimedTurn) : Option (World × Option WaitEnd) :=
  (s.getevents c turn.enter).bind fun s =>
  (s.kernelRun c turn.after).bind fun s =>
    match turn.enter.ret with
    | .error errno => if errno ≠ eintr then some (s, some (.failed errno)) else pollRound s
    | .ok _ => pollRound s
where
  pollRound (s : World) : Option (World × Option WaitEnd) :=
    if s.Ready c minRequests then some (s, some .ready)
    else if expired deadline turn.now then some (s, some (.timeUp turn.now))
    else
      (s.kernelRun c turn.poll.kernel).map fun s =>
        match turn.poll.ret with
        | .error errno => (s, if errno ≠ eintr then some (.failed errno) else none)
        | .ok _ => (s, none)

def timedLoop : List TimedTurn → World → Option (World × WaitEnd)
  | [], s => if s.Ready c minRequests then some (s, .ready) else none
  | turn :: turns, s =>
    if s.Ready c minRequests then some (s, .ready)
    else
      (s.timedRound c minRequests deadline turn).bind fun
        | (s, some e) => some (s, e)
        | (s, none) => timedLoop turns s

end World

/-- `deadline`, for a wait that starts at `start`. -/
def deadlineOf (tvSec : Int32) (start : Timespec) : Option Timespec :=
  if 0 < tvSec then some (start.addSec tvSec) else none

namespace World

variable {c : CtxId} {minRequests : UInt32} {deadline : Option Timespec} {s t u v : World}

/-- `AIOContext_process_events` from its wait loop on: `tv_sec` is not 0, and the kernel takes
the `late` steps before the drain looks at the ring. -/
def awaitEvents (s : World) (c : CtxId) (maxRequests minRequests : UInt32) (tvSec : Int32)
    (start : Timespec) (turns : List TimedTurn) (late : List KernelStep) :
    Option (World × WaitEnd × Except PyErr ℕ) :=
  (timedLoop c minRequests (deadlineOf tvSec start) turns s).bind fun (s, e) =>
    match e.errno with
    | some errno => some (s, e, .error (.systemError errno))
    | none => (s.kernelRun c late).map fun s =>
      ((s.drain c maxRequests).1, e, (s.drain c maxRequests).2)

/-- What a round says to the loop, when it is not asked for the reason. -/
def roundOf : Option WaitEnd → Round
  | none => .again
  | some e => .stop e.errno

theorem pollRound_forget (s : World) (turn : TimedTurn) :
    (timedRound.pollRound c minRequests deadline turn s).map (fun r => (r.1, roundOf r.2)) =
      waitRound.pollRound c minRequests deadline.isSome (turn.turn deadline) s := by
  have hexp : (deadline.isSome = true ∧ (turn.turn deadline).expired = true) ↔
      expired deadline turn.now = true := by
    cases deadline <;> simp [expired, TimedTurn.turn]
  unfold timedRound.pollRound waitRound.pollRound
  simp only [hexp]
  split_ifs
  · rfl
  · rfl
  · rw [Option.map_map]
    show _ = (s.kernelRun c turn.poll.kernel).map _
    congr 1
    funext u
    simp only [Function.comp, TimedTurn.turn]
    cases turn.poll.ret with
    | error errno =>
      simp only
      split_ifs <;> rfl
    | ok n => rfl

theorem timedRound_forget (s : World) (turn : TimedTurn) :
    (s.timedRound c minRequests deadline turn).map (fun r => (r.1, roundOf r.2)) =
      s.waitRound c minRequests deadline.isSome (turn.turn deadline) := by
  unfold timedRound waitRound
  rw [Option.map_bind]
  show _ = (s.getevents c turn.enter).bind _
  congr 1
  funext u
  rw [Function.comp, Option.map_bind]
  show _ = (u.kernelRun c turn.after).bind _
  congr 1
  funext v
  simp only [Function.comp, TimedTurn.turn]
  cases turn.enter.ret with
  | error errno =>
    simp only
    split_ifs
    · rfl
    · exact pollRound_forget v turn
  | ok n => exact pollRound_forget v turn

/-- The loop with the clock is the wait loop, with the outcome of each deadline check read off its
clock. -/
theorem timedLoop_forget (turns : List TimedTurn) (s : World) :
    (timedLoop c minRequests deadline turns s).map (fun r => (r.1, r.2.errno)) =
      waitLoop c minRequests deadline.isSome (turns.map (TimedTurn.turn deadline)) s := by
  induction turns generalizing s with
  | nil =>
    unfold timedLoop
    show _ = waitLoop _ _ _ [] s
    unfold waitLoop
    split_ifs <;> rfl
  | cons turn turns ih =>
    rw [List.map_cons]
    unfold timedLoop waitLoop
    split_ifs
    · rfl
    · rw [Option.map_bind, ← timedRound_forget]
      cases s.timedRound c minRequests deadline turn with
      | none => rfl
      | some r =>
        obtain ⟨u, e⟩ := r
        cases e with
        | none => exact ih u
        | some e => rfl

theorem awaitEvents_forget (s : World) {maxRequests : UInt32} {tvSec : Int32} (start : Timespec)
    (turns : List TimedTurn) (hmin : 0 < minRequests) (hle : minRequests ≤ maxRequests)
    (htv : tvSec ≠ 0) :
    (s.awaitEvents c maxRequests minRequests tvSec start turns []).map (fun r => (r.1, r.2.2)) =
      s.processEvents c maxRequests minRequests tvSec
        (turns.map (TimedTurn.turn (deadlineOf tvSec start))) := by
  have hmax : maxRequests ≠ 0 := by
    intro h
    rw [h, UInt32.le_iff_toNat_le] at hle
    rw [UInt32.lt_iff_toNat_lt] at hmin
    omega
  have hdead : (deadlineOf tvSec start).isSome = decide (0 < tvSec) := by
    unfold deadlineOf
    split_ifs with h <;> simp [h]
  unfold awaitEvents processEvents
  rw [if_neg hmax]
  simp only
  rw [if_neg (UInt32.not_lt.mpr hle), if_neg (fun h => htv h.2), if_pos hmin, ← hdead,
    ← timedLoop_forget, Option.map_bind, Option.map_map]
  cases timedLoop c minRequests (deadlineOf tvSec start) turns s with
  | none => rfl
  | some r =>
    obtain ⟨u, e⟩ := r
    cases e <;> rfl

/-- What the kernel keeps, the wait keeps. -/
structure KernelKeeps (c : CtxId) (P : World → Prop) : Prop where
  step : ∀ {s t : World} {a : KernelStep}, P s → s.kernelStep c a = some t → P t
  backlog : ∀ {s : World}, P s → P (s.setCtx c (s.ctxs c).moveBacklog)

namespace KernelKeeps

variable {P : World → Prop}

theorem kernelRun (h : KernelKeeps c P) (hs : P s) {as : List KernelStep}
    (hrun : s.kernelRun c as = some t) : P t :=
  kernelRun_invariant (fun _ _ _ => h.step) hs hrun

theorem pollRound (h : KernelKeeps c P) {turn : TimedTurn} {e : Option WaitEnd} (hs : P s)
    (hrun : timedRound.pollRound c minRequests deadline turn s = some (t, e)) : P t := by
  unfold timedRound.pollRound at hrun
  split_ifs at hrun
  · cases hrun
    exact hs
  · cases hrun
    exact hs
  · obtain ⟨u, hu, hrun⟩ := Option.map_eq_some_iff.mp hrun
    have hu := h.kernelRun hs hu
    split at hrun <;> cases hrun <;> exact hu

theorem timedRound_of (h : KernelKeeps c P) {turn : TimedTurn} {e : Option WaitEnd}
    (hs : ∀ u, s.getevents c turn.enter = some u → P u)
    (hrun : s.timedRound c minRequests deadline turn = some (t, e)) : P t := by
  unfold World.timedRound at hrun
  obtain ⟨u, hu, hrun⟩ := Option.bind_eq_some_iff.mp hrun
  obtain ⟨v, hv, hend⟩ := Option.bind_eq_some_iff.mp hrun
  have hv := h.kernelRun (hs u hu) hv
  split at hend
  · split_ifs at hend
    · cases hend
      exact hv
    · exact h.pollRound hv hend
  · exact h.pollRound hv hend

theorem timedRound (h : KernelKeeps c P) {turn : TimedTurn} {e : Option WaitEnd} (hs : P s)
    (hrun : s.timedRound c minRequests deadline turn = some (t, e)) : P t := by
  apply h.timedRound_of ?_ hrun
  intro u hu
  obtain ⟨w, hw, rfl⟩ := Option.map_eq_some_iff.mp hu
  exact h.backlog (h.kernelRun hs hw)

theorem timedLoop (h : KernelKeeps c P) {turns : List TimedTurn} {e : WaitEnd} (hs : P s)
    (hrun : World.timedLoop c minRequests deadline turns s = some (t, e)) : P t := by
  induction turns generalizing s with
  | nil =>
    unfold World.timedLoop at hrun
    split_ifs at hrun
    cases hrun
    exact hs
  | cons turn turns ih =>
    unfold World.timedLoop at hrun
    split_ifs at hrun
    · cases hrun
      exact hs
    · obtain ⟨⟨u, e'⟩, hu, hrun⟩ := Option.bind_eq_some_iff.mp hrun
      have hP := h.timedRound hs hu
      cases e' with
      | none => exact ih hP hrun
      | some e' =>
        cases hrun
        exact hP

end KernelKeeps

def delivered (s t : World) : ℕ := t.deliveries.length - s.deliveries.length

def Ended (c : CtxId) (minRequests : UInt32) (deadline : Option Timespec) (s : World) :
    WaitEnd → Prop
  | .ready => s.Ready c minRequests
  | .timeUp now => ∃ d ∈ deadline, d.nanos - now.nanos < 1000000
  | .failed _ => True

theorem pollRound_ended {turn : TimedTurn} {e : WaitEnd}
    (h : timedRound.pollRound c minRequests deadline turn s = some (t, some e)) :
    Ended c minRequests deadline t e := by
  unfold timedRound.pollRound at h
  split_ifs at h with hready hexp
  · cases h
    exact hready
  · cases h
    obtain ⟨d, hd, hms⟩ := (Option.any_eq_true _ _).mp hexp
    exact ⟨d, hd, Timespec.left_lt_of_remainingMs (of_decide_eq_true hms)⟩
  · obtain ⟨u, -, h⟩ := Option.map_eq_some_iff.mp h
    split at h
    · split_ifs at h <;> cases h
      trivial
    · cases h

theorem timedRound_ended {turn : TimedTurn} {e : WaitEnd}
    (h : s.timedRound c minRequests deadline turn = some (t, some e)) :
    Ended c minRequests deadline t e := by
  unfold timedRound at h
  obtain ⟨u, -, h⟩ := Option.bind_eq_some_iff.mp h
  obtain ⟨v, -, h⟩ := Option.bind_eq_some_iff.mp h
  split at h
  · split_ifs at h
    · cases h
      trivial
    · exact pollRound_ended h
  · exact pollRound_ended h

theorem timedLoop_ended {turns : List TimedTurn} {e : WaitEnd}
    (h : timedLoop c minRequests deadline turns s = some (t, e)) :
    Ended c minRequests deadline t e := by
  induction turns generalizing s with
  | nil =>
    unfold timedLoop at h
    split_ifs at h with hready
    cases h
    exact hready
  | cons turn turns ih =>
    unfold timedLoop at h
    split_ifs at h with hready
    · cases h
      exact hready
    · obtain ⟨⟨u, e'⟩, hu, h⟩ := Option.bind_eq_some_iff.mp h
      cases e' with
      | none => exact ih h
      | some e' =>
        cases h
        exact timedRound_ended hu

end World

end Caio.Uring
