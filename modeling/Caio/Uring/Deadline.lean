import Mathlib.Algebra.Order.Group.Unbundled.Int
import Caio.Uring.Enough

namespace Caio.Uring

namespace Timespec

variable (deadline now : Timespec)

def left : ℤ := deadline.nanos - now.nanos

/-- `remaining_ms` in the types of the source. -/
def remainingMs64 : Int64 :=
  (Int64.ofInt deadline.sec - Int64.ofInt now.sec) * 1000 +
    (Int64.ofInt deadline.nsec - Int64.ofInt now.nsec) / 1000000

theorem remainingMs_mul : deadline.remainingMs now * 1000000 =
    deadline.left now - ((deadline.nsec : ℤ) - now.nsec).tmod 1000000 := by
  have hdiv := Int.mul_tdiv_add_tmod ((deadline.nsec : ℤ) - now.nsec) 1000000
  unfold remainingMs left nanos
  omega

theorem abs_remainingMs_sub_left :
    |deadline.remainingMs now * 1000000 - deadline.left now| < 1000000 := by
  -- the remainder may be negative: C truncates towards zero
  have hlt := Int.tmod_lt_of_pos ((deadline.nsec : ℤ) - now.nsec) (b := 1000000) (by omega)
  have hgt := Int.lt_tmod_of_pos ((deadline.nsec : ℤ) - now.nsec) (b := 1000000) (by omega)
  have hmul := remainingMs_mul deadline now
  apply abs_lt.mpr
  constructor <;> omega

theorem toInt_remainingMs64 (hlo : -9007199254740992 ≤ deadline.sec - now.sec)
    (hhi : deadline.sec - now.sec ≤ 9007199254740992) :
    (deadline.remainingMs64 now).toInt = deadline.remainingMs now := by
  have hd := deadline.nsec_lt
  have hn := now.nsec_lt
  have hsec : (Int64.ofInt deadline.sec - Int64.ofInt now.sec).toInt = deadline.sec - now.sec := by
    rw [← Int64.ofInt_sub]
    exact Int64.toInt_ofInt_of_le (by omega) (by omega)
  have hnsec : (Int64.ofInt deadline.nsec - Int64.ofInt now.nsec).toInt =
      (deadline.nsec : ℤ) - now.nsec := by
    rw [← Int64.ofInt_sub]
    exact Int64.toInt_ofInt_of_le (by omega) (by omega)
  have hlt := Int.tmod_lt_of_pos ((deadline.nsec : ℤ) - now.nsec) (b := 1000000) (by omega)
  have hgt := Int.lt_tmod_of_pos ((deadline.nsec : ℤ) - now.nsec) (b := 1000000) (by omega)
  have hdiv := Int.mul_tdiv_add_tmod ((deadline.nsec : ℤ) - now.nsec) 1000000
  have hquot : ((Int64.ofInt deadline.nsec - Int64.ofInt now.nsec) / 1000000).toInt =
      ((deadline.nsec : ℤ) - now.nsec).tdiv 1000000 := by
    rw [Int64.toInt_div_of_ne_right _ _ (by decide), hnsec]
    rfl
  have hms : ((Int64.ofInt deadline.sec - Int64.ofInt now.sec) * 1000).toInt =
      (deadline.sec - now.sec) * 1000 := by
    rw [Int64.toInt_mul, hsec, show (1000 : Int64).toInt = 1000 from rfl]
    exact Int.bmod_eq_of_le (by omega) (by omega)
  unfold remainingMs64 remainingMs
  rw [Int64.toInt_add, hms, hquot]
  exact Int.bmod_eq_of_le (by omega) (by omega)

end Timespec

def pollTimeoutMs (deadline : Option Timespec) (now : Timespec) : Int32 :=
  match deadline with
  | none => -1
  | some d =>
    if 2147483647 < d.remainingMs now then 2147483647 else Int32.ofInt (d.remainingMs now)

namespace World

variable (c : CtxId) (minRequests : UInt32) (deadline : Option Timespec)

/-- `timedRound` up to its `poll`: the wait ends before it, or this is the argument. -/
def untilPoll (s : World) (turn : TimedTurn) : Option (World × Except WaitEnd Int32) :=
  (s.getevents c turn.enter).bind fun s =>
  (s.kernelRun c turn.after).map fun s =>
    match turn.enter.ret with
    | .error errno => if errno ≠ eintr then (s, .error (.failed errno)) else look s
    | .ok _ => look s
where
  look (s : World) : World × Except WaitEnd Int32 :=
    if s.Ready c minRequests then (s, .error .ready)
    else if expired deadline turn.now then (s, .error (.timeUp turn.now))
    else (s, .ok (pollTimeoutMs deadline turn.now))

/-- The calls of `poll` in the loop, each with the reading of the clock before it. -/
def polls : List TimedTurn → World → List (Timespec × Int32)
  | [], _ => []
  | turn :: turns, s =>
    if s.Ready c minRequests then []
    else
      match s.untilPoll c minRequests deadline turn with
      | some (_, .ok timeoutMs) =>
        (turn.now, timeoutMs) ::
          match s.timedRound c minRequests deadline turn with
          | some (s, none) => polls turns s
          | _ => []
      | _ => []

end World

section Poll

variable {c : CtxId} {minRequests : UInt32} {deadline : Option Timespec} {s t : World}

open World

theorem pollRound_eq (s : World) (turn : TimedTurn) :
    timedRound.pollRound c minRequests deadline turn s =
      match untilPoll.look c minRequests deadline turn s with
      | (s, .error e) => some (s, some e)
      | (s, .ok _) => (s.kernelRun c turn.poll.kernel).map fun s =>
        match turn.poll.ret with
        | .error errno => (s, if errno ≠ eintr then some (.failed errno) else none)
        | .ok _ => (s, none) := by
  unfold timedRound.pollRound untilPoll.look
  split_ifs <;> rfl

theorem timedRound_eq (s : World) (turn : TimedTurn) :
    s.timedRound c minRequests deadline turn =
      (s.untilPoll c minRequests deadline turn).bind fun
        | (s, .error e) => some (s, some e)
        | (s, .ok _) => (s.kernelRun c turn.poll.kernel).map fun s =>
          match turn.poll.ret with
          | .error errno => (s, if errno ≠ eintr then some (.failed errno) else none)
          | .ok _ => (s, none) := by
  unfold timedRound untilPoll
  cases s.getevents c turn.enter with
  | none => rfl
  | some s =>
    simp only [Option.bind_some]
    cases s.kernelRun c turn.after with
    | none => rfl
    | some s =>
      simp only [Option.bind_some, Option.map_some]
      cases turn.enter.ret with
      | ok n => exact pollRound_eq s turn
      | error errno =>
        by_cases h : errno ≠ eintr
        · simp only [if_pos h]
        · simp only [if_neg h]
          exact pollRound_eq s turn

theorem look_ok {turn : TimedTurn} {u : World} {timeoutMs : Int32}
    (h : untilPoll.look c minRequests deadline turn s = (u, .ok timeoutMs)) :
    expired deadline turn.now = false ∧ timeoutMs = pollTimeoutMs deadline turn.now := by
  unfold untilPoll.look at h
  split_ifs at h with hready hexp <;> cases h
  exact ⟨Bool.eq_false_iff.mpr hexp, rfl⟩

theorem untilPoll_ok {turn : TimedTurn} {u : World} {timeoutMs : Int32}
    (h : s.untilPoll c minRequests deadline turn = some (u, .ok timeoutMs)) :
    expired deadline turn.now = false ∧ timeoutMs = pollTimeoutMs deadline turn.now := by
  unfold untilPoll at h
  obtain ⟨v, -, h⟩ := Option.bind_eq_some_iff.mp h
  obtain ⟨w, -, h⟩ := Option.map_eq_some_iff.mp h
  split at h
  · split_ifs at h
    · cases h
    · exact look_ok h
  · exact look_ok h

theorem mem_polls {turns : List TimedTurn} {now : Timespec} {timeoutMs : Int32}
    (h : (now, timeoutMs) ∈ polls c minRequests deadline turns s) :
    expired deadline now = false ∧ timeoutMs = pollTimeoutMs deadline now := by
  induction turns generalizing s with
  | nil => exact absurd h List.not_mem_nil
  | cons turn turns ih =>
    unfold polls at h
    split_ifs at h with hready
    · exact absurd h List.not_mem_nil
    · split at h
      · rename_i u ms hu
        rcases List.mem_cons.mp h with heq | h
        · cases heq
          exact untilPoll_ok hu
        · split at h
          · exact ih h
          · exact absurd h List.not_mem_nil
      · exact absurd h List.not_mem_nil

end Poll

theorem remainingMs_pos {d now : Timespec} (h : expired (some d) now = false) :
    0 < d.remainingMs now := by
  have h : decide (d.remainingMs now ≤ 0) = false := h
  have := of_decide_eq_false h
  omega

theorem toInt_pollTimeoutMs {d now : Timespec} (h : 0 < d.remainingMs now) :
    (pollTimeoutMs (some d) now).toInt = min (d.remainingMs now) 2147483647 := by
  show (if _ then (2147483647 : Int32) else _).toInt = _
  split_ifs with hbig
  · rw [min_eq_right (by omega)]
    rfl
  · rw [min_eq_left (by omega)]
    exact Int32.toInt_ofInt_of_le (by omega) (by omega)

/-- Before the deadline `poll` gets a timeout from 1 to `INT_MAX`, and waits less than a
millisecond past it. -/
theorem pollTimeoutMs_bounds {d now : Timespec} (h : expired (some d) now = false) :
    1 ≤ (pollTimeoutMs (some d) now).toInt ∧
      (pollTimeoutMs (some d) now).toInt ≤ 2147483647 ∧
      now.nanos + (pollTimeoutMs (some d) now).toInt * 1000000 - d.nanos < 1000000 := by
  have hpos := remainingMs_pos h
  have hmul := abs_lt.mp (Timespec.abs_remainingMs_sub_left d now)
  have hmin := toInt_pollTimeoutMs hpos
  unfold Timespec.left at hmul
  omega

/-- The loop with a deadline, over any readings of its clock. The second half of the first part
is about overflow: readings in order that are less than 2^53 seconds after the start. -/
theorem poll_keeps_deadline (c : CtxId) (minRequests : UInt32) {tvSec : Int32} (hT : 0 < tvSec)
    (start : Timespec) (turns : List TimedTurn) (s : World) :
    (∀ turn ∈ turns,
      |(start.addSec tvSec).remainingMs turn.now * 1000000 - (start.addSec tvSec).left turn.now| <
        1000000 ∧
      (start.nanos ≤ turn.now.nanos → turn.now.sec - start.sec ≤ 9007199254740992 →
        ((start.addSec tvSec).remainingMs64 turn.now).toInt =
          (start.addSec tvSec).remainingMs turn.now)) ∧
    (∀ now timeoutMs,
      (now, timeoutMs) ∈ World.polls c minRequests (deadlineOf tvSec start) turns s →
        1 ≤ timeoutMs.toInt ∧ timeoutMs.toInt ≤ 2147483647 ∧
        now.nanos + timeoutMs.toInt * 1000000 - (start.addSec tvSec).nanos < 1000000) ∧
    ∀ t now,
      World.timedLoop c minRequests (deadlineOf tvSec start) turns s = some (t, .timeUp now) →
        (start.addSec tvSec).left now < 1000000 := by
  have hdeadline : deadlineOf tvSec start = some (start.addSec tvSec) := if_pos hT
  rw [hdeadline]
  refine ⟨?_, ?_, ?_⟩
  · intro turn _
    refine ⟨Timespec.abs_remainingMs_sub_left _ _, ?_⟩
    intro hmono hspan
    have hsn := start.nsec_lt
    have hnn := turn.now.nsec_lt
    have hpos := Int32.lt_iff_toInt_lt.mp hT
    have hmax : tvSec.toInt ≤ 2147483647 := tvSec.toInt_le
    have hsec : (start.addSec tvSec).sec = start.sec + tvSec.toInt := rfl
    unfold Timespec.nanos at hmono
    rw [show (0 : Int32).toInt = 0 from rfl] at hpos
    apply Timespec.toInt_remainingMs64 <;> omega
  · intro now timeoutMs h
    obtain ⟨hexp, rfl⟩ := mem_polls h
    exact pollTimeoutMs_bounds hexp
  · intro t now h
    obtain ⟨d, hd, hlt⟩ := World.timedLoop_ended h
    cases hd
    exact hlt

/-- The longest timeout, with a nanosecond field that goes down: the `poll` is clamped. -/
theorem poll_keeps_deadline_clamped :
    let start : Timespec := ⟨5, 999999999, by decide⟩
    ∃ now timeoutMs,
      (now, timeoutMs) ∈ World.polls 0 2 (deadlineOf 2147483647 start)
        [⟨⟨[], .ok 0⟩, [], ⟨6, 0, by decide⟩, ⟨[], .ok 0⟩⟩] World.sentinelFirst ∧
      timeoutMs = 2147483647 ∧
      now.nanos + timeoutMs.toInt * 1000000 - (start.addSec 2147483647).nanos < 1000000 := by
  intro start
  have hpolls : ((World.polls 0 2 (deadlineOf 2147483647 start)
      [⟨⟨[], .ok 0⟩, [], ⟨6, 0, by decide⟩, ⟨[], .ok 0⟩⟩] World.sentinelFirst).any
      fun call => call.2 == 2147483647) = true := by decide +kernel
  obtain ⟨⟨now, timeoutMs⟩, hmem, hmax⟩ := List.any_eq_true.mp hpolls
  obtain ⟨-, hall, -⟩ := poll_keeps_deadline 0 2 (show 0 < (2147483647 : Int32) by decide) start
    [⟨⟨[], .ok 0⟩, [], ⟨6, 0, by decide⟩, ⟨[], .ok 0⟩⟩] World.sentinelFirst
  exact ⟨now, timeoutMs, hmem, beq_iff_eq.mp hmax, (hall now timeoutMs hmem).2.2⟩

end Caio.Uring
