import Mathlib.Tactic.SplitIfs
import Caio.Uring.Submit

namespace Caio.Uring

namespace SqRing

/-- What `io_uring_enter(to_submit)` takes: the oldest entries, each with its index. -/
def enter (r : SqRing) : ℕ → List (UInt32 × Sqe) × SqRing
  | 0 => ([], r)
  | n + 1 =>
    match r.consume with
    | none => ([], r)
    | some (e, r') => ((r.head, e) :: (r'.enter n).1, (r'.enter n).2)

def staged (r : SqRing) : ℕ := (r.tail - r.head).toNat

variable {r r' : SqRing} {e : Sqe}

theorem consume_none (h : r.head = r.tail) : r.consume = none := if_pos h

theorem consume_some (h : r.head ≠ r.tail) :
    r.consume = some (r.view (r.size.slot r.head), { r with head := r.head + 1 }) := if_neg h

theorem staged_eq_zero : r.staged = 0 ↔ r.head = r.tail := by
  rw [staged, RingBuffer.sub_toNat_eq_zero, eq_comm]

theorem staged_consume (h : r.head ≠ r.tail) :
    ({ r with head := r.head + 1 } : SqRing).staged + 1 = r.staged :=
  (RingBuffer.sub_succ_toNat h).symm

theorem enter_spec (r : SqRing) (m : ℕ) :
    (r.enter m).1.length = min m r.staged ∧ (r.enter m).2.tail = r.tail ∧
      (r.enter m).2.staged = r.staged - min m r.staged := by
  induction m generalizing r with
  | zero =>
    rw [Nat.zero_min]
    exact ⟨rfl, rfl, rfl⟩
  | succ m ih =>
    unfold enter
    by_cases h : r.head = r.tail
    · have hzero := staged_eq_zero.mpr h
      rw [consume_none h, hzero, Nat.min_zero]
      exact ⟨rfl, rfl, rfl⟩
    · rw [consume_some h]
      obtain ⟨hlen, htail, hstaged⟩ := ih { r with head := r.head + 1 }
      have hone := staged_consume h
      refine ⟨?_, htail, ?_⟩
      · rw [List.length_cons, hlen]
        omega
      · rw [hstaged]
        omega

end SqRing

/-- The submission side of a Context and the kernel. -/
structure SqKernel where
  ring : SqRing
  sqpoll : Bool
  /-- Asleep, the poller has set `IORING_SQ_NEED_WAKEUP`. -/
  awake : Bool
  /-- What the kernel has taken since the running call began. -/
  taken : List (UInt32 × Sqe) := []

inductive PollerStep
  | take
  /-- The poller goes to sleep when it finds the ring empty. -/
  | sleep
deriving DecidableEq, Repr

namespace SqKernel

def pollerStep (k : SqKernel) (a : PollerStep) : Option SqKernel :=
  if k.sqpoll = true ∧ k.awake = true then
    match a with
    | .take => k.ring.consume.map fun (e, ring) =>
      { k with ring, taken := k.taken ++ [(k.ring.head, e)] }
    | .sleep => if k.ring.head = k.ring.tail then some { k with awake := false } else none
  else none

def pollerRun : SqKernel → List PollerStep → Option SqKernel
  | k, [] => some k
  | k, a :: as => (k.pollerStep a).bind fun k => pollerRun k as

/-- `io_uring_enter(to_submit, flags)`: in SQPOLL mode it only wakes the poller, and only with
`IORING_ENTER_SQ_WAKEUP`. -/
def enter (k : SqKernel) (toSubmit : ℕ) (wakeup : Bool) : SqKernel :=
  if k.sqpoll then { k with awake := k.awake || wakeup }
  else { k with ring := (k.ring.enter toSubmit).2, taken := k.taken ++ (k.ring.enter toSubmit).1 }

/-- `AIOContext_cancel`, with the steps of the poller between its store to `sq_tail`, its
`io_uring_enter` and its `return`. -/
def cancel (k : SqKernel) (p : OpPtr) (before after : List PollerStep) :
    Option (SqKernel × Except PyErr ℕ) :=
  match cancelStage k.ring p with
  | .error e => some (k, .error e)
  | .ok ring =>
    (pollerRun { k with ring, taken := [] } before).bind fun k =>
      ((k.enter 1 false).pollerRun after).map fun k => (k, .ok 0)

/-- The kernel has taken the request that `cancel` staged at the old tail. -/
def Consumed (k k' : SqKernel) (p : OpPtr) : Prop := (k.ring.tail, cancelSqe p) ∈ k'.taken

/-- What the caller of `cancel` may rely on when it returns. -/
structure HandsOver (k k' : SqKernel) (p : OpPtr) : Prop where
  request : k.Consumed k' p ∨ k'.sqpoll = true ∧ k'.awake = true
  /-- Without SQPOLL no other entries are handed over in its place. -/
  others : k.sqpoll = false → ¬k.Consumed k' p → k'.taken = []

/-- The request with index `i` has been taken, or it waits in the ring of a poller that is awake. -/
def Attended (k : SqKernel) (p : OpPtr) (i : UInt32) : Prop :=
  (i, cancelSqe p) ∈ k.taken ∨
    k.awake = true ∧ k.ring.Live k.ring.tail i ∧ k.ring.view (k.ring.size.slot i) = cancelSqe p

variable {k k' : SqKernel} {p : OpPtr} {i : UInt32}

theorem Attended.pollerStep (h : k.Attended p i) {a : PollerStep}
    (hs : k.pollerStep a = some k') : k'.Attended p i := by
  obtain ⟨-, hs⟩ := Option.ite_none_right_eq_some.mp hs
  cases a with
  | take =>
    obtain ⟨⟨e, ring⟩, he, rfl⟩ := Option.map_eq_some_iff.mp hs
    obtain ⟨hne, he⟩ := Option.ite_none_left_eq_some.mp he
    cases he
    obtain htaken | ⟨hawake, hlive, hview⟩ := h
    · exact .inl (List.mem_append_left _ htaken)
    · by_cases hi : i = k.ring.head
      -- the poller takes the request itself
      · subst hi
        refine .inl (List.mem_append_right _ ?_)
        rw [← hview]
        exact List.mem_cons_self
      · have hcut := RingBuffer.sub_succ_toNat (Ne.symm hi)
        have hcut' := RingBuffer.sub_succ_toNat hne
        have hlive : (i - k.ring.head).toNat < (k.ring.tail - k.ring.head).toNat := hlive
        refine .inr ⟨hawake, ?_, hview⟩
        show (i - (k.ring.head + 1)).toNat < (k.ring.tail - (k.ring.head + 1)).toNat
        omega
  | sleep =>
    obtain ⟨hempty, hs⟩ := Option.ite_none_right_eq_some.mp hs
    cases hs
    obtain htaken | ⟨-, hlive, -⟩ := h
    · exact .inl htaken
    · -- the poller does not sleep on a ring in which the request waits
      have hlive : (i - k.ring.head).toNat < (k.ring.tail - k.ring.head).toNat := hlive
      rw [hempty, UInt32.sub_self] at hlive
      exact absurd hlive (Nat.not_lt_zero _)

theorem Attended.pollerRun (h : k.Attended p i) {as : List PollerStep}
    (hs : k.pollerRun as = some k') : k'.Attended p i := by
  induction as generalizing k with
  | nil =>
    cases hs
    exact h
  | cons a as ih =>
    obtain ⟨u, hu, hs⟩ := Option.bind_eq_some_iff.mp hs
    exact ih (h.pollerStep hu) hs

theorem pollerRun_idle (h : ¬(k.sqpoll = true ∧ k.awake = true)) {as : List PollerStep}
    (hs : k.pollerRun as = some k') : k' = k := by
  cases as with
  | nil =>
    cases hs
    rfl
  | cons a as =>
    obtain ⟨u, hu, -⟩ := Option.bind_eq_some_iff.mp hs
    exact absurd (Option.ite_none_right_eq_some.mp hu).1 h

theorem pollerStep_sqpoll {a : PollerStep} (hs : k.pollerStep a = some k') :
    k'.sqpoll = k.sqpoll := by
  obtain ⟨-, hs⟩ := Option.ite_none_right_eq_some.mp hs
  cases a with
  | take =>
    obtain ⟨_, -, rfl⟩ := Option.map_eq_some_iff.mp hs
    rfl
  | sleep =>
    obtain ⟨-, hs⟩ := Option.ite_none_right_eq_some.mp hs
    cases hs
    rfl

theorem pollerRun_sqpoll {as : List PollerStep} (hs : k.pollerRun as = some k') :
    k'.sqpoll = k.sqpoll := by
  induction as generalizing k with
  | nil =>
    cases hs
    rfl
  | cons a as ih =>
    obtain ⟨u, hu, hs⟩ := Option.bind_eq_some_iff.mp hs
    exact (ih hs).trans (pollerStep_sqpoll hu)

theorem Attended.enter (h : k.Attended p i) (hpoll : k.sqpoll = true) (toSubmit : ℕ) :
    (k.enter toSubmit false).Attended p i := by
  unfold SqKernel.enter
  rw [if_pos hpoll, Bool.or_false]
  exact h

theorem cancelStage_ok {r r' : SqRing} (h : cancelStage r p = .ok r') :
    r'.head = r.head ∧ r'.tail = r.tail + 1 ∧ r'.Live r'.tail r.tail ∧
      r'.view (r'.size.slot r.tail) = cancelSqe p := by
  unfold cancelStage at h
  split_ifs at h with hfull
  cases h
  have hfree := (RingBuffer.lt_entries_iff _).mp (UInt32.not_le.mp hfull)
  have hpow := r.size.pow_le
  refine ⟨SqRing.put_head .., rfl, ?_, ?_⟩
  · show (r.tail - (r.put r.tail (cancelSqe p)).head).toNat <
      (r.tail + 1 - (r.put r.tail (cancelSqe p)).head).toNat
    rw [SqRing.put_head, RingBuffer.sub_toNat_succ (by omega)]
    omega
  · show (r.put r.tail (cancelSqe p)).view ((r.put r.tail (cancelSqe p)).size.slot r.tail) = _
    rw [SqRing.put_size]
    exact SqRing.view_put_self ..

theorem enter_one (hpoll : k.sqpoll = false) (h : k.ring.head ≠ k.ring.tail) (wakeup : Bool) :
    (k.enter 1 wakeup).taken =
      k.taken ++ [(k.ring.head, k.ring.view (k.ring.size.slot k.ring.head))] ∧
    (k.enter 1 wakeup).sqpoll = false := by
  unfold SqKernel.enter
  rw [if_neg (by rw [hpoll]; decide)]
  refine ⟨?_, hpoll⟩
  show k.taken ++ (k.ring.enter 1).1 = _
  rw [SqRing.enter, SqRing.consume_some h]
  rfl

theorem cancel_handsOver_poll {ring : SqRing} {before after : List PollerStep} {u : SqKernel}
    (hpoll : k.sqpoll = true) (hstage : cancelStage k.ring p = .ok ring)
    (hu : pollerRun { k with ring, taken := [] } before = some u)
    (hv : (u.enter 1 false).pollerRun after = some k') :
    k.HandsOver k' p ↔ k.awake = true := by
  obtain ⟨-, -, hlive, hview⟩ := cancelStage_ok hstage
  have hsq : u.sqpoll = true := (pollerRun_sqpoll hu).trans hpoll
  have hsq' : k'.sqpoll = true := by
    rw [pollerRun_sqpoll hv, SqKernel.enter, if_pos hsq]
    exact hsq
  constructor
  · intro h
    -- asleep the poller takes nothing, and `cancel` does not ask for a wakeup
    by_contra hasleep
    have hidle := pollerRun_idle (k := { k with ring, taken := [] }) (fun hrun => hasleep hrun.2) hu
    subst hidle
    have hidle := pollerRun_idle (by
      rw [SqKernel.enter, if_pos hsq, Bool.or_false]
      exact fun hrun => hasleep hrun.2) hv
    rw [SqKernel.enter, if_pos hsq, Bool.or_false] at hidle
    subst hidle
    obtain htaken | ⟨-, hawake⟩ := h.request
    · cases htaken
    · exact hasleep hawake
  · intro hawake
    -- an awake poller has the request in its ring, and keeps it in sight until `cancel` returns
    have hatt : Attended { k with ring, taken := [] } p k.ring.tail := .inr ⟨hawake, hlive, hview⟩
    refine ⟨?_, fun hno => absurd hpoll (by rw [hno]; decide)⟩
    obtain htaken | ⟨hawake', -, -⟩ := ((hatt.pollerRun hu).enter hsq 1).pollerRun hv
    · exact .inl htaken
    · exact .inr ⟨hsq', hawake'⟩

theorem cancel_handsOver_plain {ring : SqRing} {before after : List PollerStep} {u : SqKernel}
    (hpoll : k.sqpoll = false) (hstage : cancelStage k.ring p = .ok ring)
    (hu : pollerRun { k with ring, taken := [] } before = some u)
    (hv : (u.enter 1 false).pollerRun after = some k') :
    k.HandsOver k' p ↔ k.ring.staged = 0 := by
  obtain ⟨hhead, htail, hlive, hview⟩ := cancelStage_ok hstage
  have hidle := pollerRun_idle (k := { k with ring, taken := [] })
    (fun hrun => absurd hrun.1 (by rw [hpoll]; decide)) hu
  subst hidle
  have hne : ring.head ≠ ring.tail := by
    intro heq
    have hlive : (k.ring.tail - ring.head).toNat < (ring.tail - ring.head).toNat := hlive
    rw [heq, UInt32.sub_self] at hlive
    exact absurd hlive (Nat.not_lt_zero _)
  obtain ⟨htaken, hsq⟩ := enter_one (k := { k with ring, taken := [] }) hpoll hne false
  have hidle := pollerRun_idle (by rw [hsq]; exact fun hrun => by cases hrun.1) hv
  subst hidle
  have hone : ∀ x, x ∈ (SqKernel.enter { k with ring, taken := [] } 1 false).taken ↔
      x = (ring.head, ring.view (ring.size.slot ring.head)) := by
    intro x
    rw [htaken]
    exact List.mem_singleton
  rw [SqRing.staged_eq_zero, ← hhead]
  constructor
  · intro h
    obtain hc | ⟨hc, -⟩ := h.request
    · exact (congrArg Prod.fst ((hone _).mp hc)).symm
    · rw [hsq] at hc
      cases hc
  · intro heq
    have hc : k.Consumed (SqKernel.enter { k with ring, taken := [] } 1 false) p := by
      refine (hone _).mpr ?_
      rw [heq, hview]
    exact ⟨.inl hc, fun _ hn => absurd hc hn⟩

/-- `cancel()` hands over its own request exactly when, without SQPOLL, nothing else is staged, and
with SQPOLL the poller is awake. -/
theorem cancel_handsOver_iff {before after : List PollerStep} {n : ℕ}
    (h : k.cancel p before after = some (k', .ok n)) :
    k.HandsOver k' p ↔ if k.sqpoll then k.awake = true else k.ring.staged = 0 := by
  unfold cancel at h
  cases hstage : cancelStage k.ring p with
  | error e =>
    rw [hstage] at h
    cases h
  | ok ring =>
    rw [hstage] at h
    obtain ⟨u, hu, h⟩ := Option.bind_eq_some_iff.mp h
    obtain ⟨v, hv, heq⟩ := Option.map_eq_some_iff.mp h
    cases heq
    cases hpoll : k.sqpoll with
    | true => exact cancel_handsOver_poll hpoll hstage hu hv
    | false => exact cancel_handsOver_plain hpoll hstage hu hv

def emptyRing : SqRing := ⟨.two, true, 0, 0, fun _ => 0, fun _ => {}⟩

/-- With an empty ring the request goes to the kernel. -/
theorem cancel_handsOver_empty :
    ∃ k', SqKernel.cancel ⟨emptyRing, false, false, []⟩ 16 [] [] = some (k', .ok 0) ∧
      SqKernel.HandsOver ⟨emptyRing, false, false, []⟩ k' 16 := by
  refine ⟨_, rfl, ?_⟩
  have hrun : SqKernel.cancel ⟨emptyRing, false, false, []⟩ 16 [] [] = some (_, .ok 0) := rfl
  exact (cancel_handsOver_iff hrun).mpr rfl

/-- One fsync is staged: it goes to the kernel, and the request to cancel it stays behind. -/
theorem cancel_hands_over_another :
    ¬∀ (k k' : SqKernel) (p : OpPtr) (before after : List PollerStep) (n : ℕ),
      k.cancel p before after = some (k', .ok n) → k.HandsOver k' p := by
  intro h
  have hover := h ⟨(emptyRing.put 0 { opcode := .fsync, userData := 16 }).publish 1, false, false,
    []⟩
    _ 16 [] [] 0 rfl
  obtain hc | ⟨hc, -⟩ := hover.request
  · exact absurd (congrArg Prod.fst (List.mem_singleton.mp hc)) (by decide)
  · cases hc

end SqKernel

end Caio.Uring
