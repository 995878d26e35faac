import Caio.Uring.World
import Caio.Lib.EventCounter
import Mathlib.Tactic.SplitIfs

/-!
# linux_uring: threads that wait in process_events

Any number of threads call `process_events` with `min_requests >= 1` and a negative
timeout on one Context. Each of them checks the ring, enters the kernel, checks again,
polls the eventfd and reads it, until it finds enough completions to drain.
-/

namespace Caio.Uring

/-- Where a thread is in `process_events`. -/
inductive Pc
  | outside
  /-- Before the load of `cq_head`; `again` for the second check of a round. -/
  | loadHead (again : Bool)
  /-- `consumed` is the number of CQEs that had been consumed when `head` was loaded. -/
  | loadTail (again : Bool) (head : UInt32) (consumed : ℕ)
  | enter
  | poll
  | read
  | drain
  /-- Inside the critical section of `uring_drain_cq`, with its snapshot of `cq_tail`. -/
  | commit (tail : UInt32)
  deriving DecidableEq

structure Waiter where
  maxRequests : UInt32 := 0
  minRequests : UInt32 := 0
  pc : Pc := .outside
  /-- It has read the eventfd and has not polled since. -/
  signalled : Bool := false

/-- It has taken a signal and will look at the ring before it blocks. -/
def Waiter.Owes (w : Waiter) : Bool :=
  w.signalled && match w.pc with
    | .loadHead false | .loadTail false .. | .drain | .commit _ => true
    | _ => false

structure Waiters (n : ℕ) where
  heap : Heap
  cq : CqRing
  /-- The eventfd, with the signals of CQEs that have been posted. -/
  event : EventCounter Cqe
  /-- The thread in the critical section. -/
  lock : Option (Fin n)
  /-- All the CQEs that drains have consumed so far. -/
  consumed : ℕ
  threads : Fin n → Waiter

namespace Waiters

variable {n : ℕ} {s t : Waiters n} {i j : Fin n}

def setThread (s : Waiters n) (i : Fin n) (w : Waiter) : Waiters n :=
  { s with threads := Function.update s.threads i w }

/-- Thread `i` goes on at `pc`. -/
def goto (s : Waiters n) (i : Fin n) (pc : Pc) : Waiters n :=
  s.setThread i { s.threads i with pc }

/-- Thread `i` returns to its caller. -/
def leave (s : Waiters n) (i : Fin n) : Waiters n :=
  s.setThread i { s.threads i with pc := .outside, signalled := false }

@[simp] theorem setThread_threads_self (s : Waiters n) (i : Fin n) (w : Waiter) :
    (s.setThread i w).threads i = w := Function.update_self ..

@[simp] theorem setThread_threads_ne (s : Waiters n) {i j : Fin n} (w : Waiter) (h : j ≠ i) :
    (s.setThread i w).threads j = s.threads j := Function.update_of_ne h ..

inductive Action (n : ℕ)
  | call (i : Fin n) (maxRequests minRequests : UInt32)
  | loadHead (i : Fin n)
  | loadTail (i : Fin n)
  | enter (i : Fin n) (ret : Except Int32 Unit)
  | poll (i : Fin n) (ret : Except Int32 Unit)
  | read (i : Fin n)
  | beginDrain (i : Fin n)
  | commit (i : Fin n)
  /-- The kernel posts a CQE. -/
  | post (e : Cqe)
  /-- The kernel signals the eventfd for its posts except `rest`. -/
  | signal (rest : List Cqe)

/-- The effect of `max_requests == 0`. -/
def effectiveMax (maxRequests : UInt32) : UInt32 :=
  if maxRequests = 0 then evMaxRequestsDefault else maxRequests

def step (s : Waiters n) : Action n → Option (Waiters n)
  | .call i maxRequests minRequests =>
    if (s.threads i).pc = .outside ∧ 0 < minRequests then
      -- the `ValueError` is raised before anything else happens
      if effectiveMax maxRequests < minRequests then some s
      else some (s.setThread i ⟨effectiveMax maxRequests, minRequests, .loadHead false, false⟩)
    else none
  | .loadHead i =>
    match (s.threads i).pc with
    | .loadHead again => some (s.goto i (.loadTail again s.cq.head s.consumed))
    | _ => none
  | .loadTail i =>
    match (s.threads i).pc with
    | .loadTail again head _ =>
      if (s.threads i).minRequests ≤ s.cq.tail - head then some (s.goto i .drain)
      else if again then
        some (s.setThread i { s.threads i with pc := .poll, signalled := false })
      else some (s.goto i .enter)
    | _ => none
  | .enter i ret =>
    if (s.threads i).pc = .enter then
      match ret with
      | .ok () => some (s.goto i (.loadHead true))
      | .error errno => some (if errno = eintr then s.goto i (.loadHead true) else s.leave i)
    else none
  | .poll i ret =>
    if (s.threads i).pc = .poll then
      match ret with
      | .ok () => if 0 < s.event.value then some (s.goto i .read) else none
      | .error errno => some (if errno = eintr then s.goto i (.loadHead false) else s.leave i)
    else none
  | .read i =>
    if (s.threads i).pc = .read then
      some { s.setThread i { s.threads i with
                pc := .loadHead false
                signalled := decide (0 < s.event.value) } with
        event := s.event.read }
    else none
  | .beginDrain i =>
    if (s.threads i).pc = .drain ∧ s.lock = none then
      some { s.goto i (.commit s.cq.tail) with lock := some i }
    else none
  | .commit i =>
    match (s.threads i).pc with
    | .commit tail =>
      let r := drainCq s.heap { s.cq with tail } (s.threads i).maxRequests
      -- the callbacks that follow touch neither the ring nor the eventfd
      some { s.leave i with
        heap := r.1
        cq := s.cq.commit r.2.1.head
        lock := none
        consumed := s.consumed + (r.2.1.head - s.cq.head).toNat }
    | _ => none
  | .post e =>
    if s.cq.Full then none
    else some { s with cq := s.cq.post e, event := s.event.announce e }
  | .signal rest => (s.event.signal rest).map fun event => { s with event }

structure Init (s : Waiters n) : Prop where
  room : (s.cq.tail - s.cq.head).toNat ≤ 2 ^ s.cq.size.log
  lock : s.lock = none
  threads : ∀ i, s.threads i = {}

def system (n : ℕ) : TransitionSystem (Waiters n) (Action n) := ⟨Init, step⟩

def Blocked (s : Waiters n) (i : Fin n) : Prop := (s.threads i).pc = .poll ∧ s.event.value = 0

instance (s : Waiters n) (i : Fin n) : Decidable (s.Blocked i) :=
  inferInstanceAs (Decidable (_ ∧ _))

/-- Thread `i` sleeps although there is enough for it in the ring, with no signal to come and no
other thread between its eventfd read and its drain. -/
structure Lost (s : Waiters n) (i : Fin n) : Prop where
  blocked : s.Blocked i
  enough : (s.threads i).minRequests.toNat ≤ s.cq.queue.length
  noSignal : s.event.pending = []
  noReader : ∀ j, (s.threads j).signalled = false

instance (s : Waiters n) (i : Fin n) : Decidable (s.Lost i) :=
  decidable_of_iff (s.Blocked i ∧ (s.threads i).minRequests.toNat ≤ s.cq.queue.length ∧
      s.event.pending = [] ∧ ∀ j, (s.threads j).signalled = false)
    ⟨fun ⟨h₁, h₂, h₃, h₄⟩ => ⟨h₁, h₂, h₃, h₄⟩, fun h => ⟨h.1, h.2, h.3, h.4⟩⟩

/-- A waiter for `min` completions is safe next to one that reads the eventfd for
`otherMin` and drains `otherMax`. -/
def Compatible (size : RingSize) (otherMax otherMin min : UInt32) : Prop :=
  2 ^ size.log < min.toNat ∨
    otherMin ≤ min ∧ 2 ^ size.log < otherMax.toNat + min.toNat

instance (size : RingSize) (a b c : UInt32) : Decidable (Compatible size a b c) :=
  inferInstanceAs (Decidable (_ ∨ _))

/-- The CQEs consumed since thread `i` loaded `cq_head`. -/
def passed (s : Waiters n) (i : Fin n) : ℕ :=
  match (s.threads i).pc with
  | .loadTail _ _ consumed => s.consumed - consumed
  | _ => 0

/-- The limits of a new call go together with those of every call that has not returned, and the
two loads of one check are less than `2^32` CQEs apart. -/
def Cautious (s : Waiters n) : Action n → Prop
  | .call i maxRequests minRequests => ∀ j, j ≠ i → (s.threads j).pc ≠ .outside →
      Compatible s.cq.size (effectiveMax maxRequests) minRequests (s.threads j).minRequests ∧
      Compatible s.cq.size (s.threads j).maxRequests (s.threads j).minRequests minRequests
  | .loadTail i => s.cq.queue.length + s.passed i < 2 ^ 32
  | _ => True

instance (s : Waiters n) : ∀ a, Decidable (s.Cautious a)
  | .call .. => inferInstanceAs (Decidable (∀ _, _))
  | .loadTail _ => inferInstanceAs (Decidable (_ < _))
  | .loadHead _ | .enter .. | .poll .. | .read _ | .beginDrain _ | .commit _ | .post _
  | .signal _ => isTrue trivial

/-- Less than `m` of `live` CQEs, or a signal to come, or a thread in `who` that will look. -/
def Watched (s : Waiters n) (who : Fin n → Prop) (live : ℕ) (m : UInt32) : Prop :=
  live < m.toNat ∨ s.event.Awake ∨ ∃ k, who k ∧ (s.threads k).Owes = true

structure Inv (s : Waiters n) : Prop where
  room : s.cq.queue.length ≤ 2 ^ s.cq.size.log
  locked : ∀ i tail, (s.threads i).pc = .commit tail → s.lock = some i
  snapshot : ∀ i tail, (s.threads i).pc = .commit tail →
    (s.cq.tail - tail).toNat ≤ s.cq.queue.length
  loaded : ∀ i again head consumed, (s.threads i).pc = .loadTail again head consumed →
    consumed ≤ s.consumed ∧ s.cq.head - head = UInt32.ofNat (s.consumed - consumed)
  positive : ∀ i, (s.threads i).pc ≠ .outside → 0 < (s.threads i).minRequests.toNat
  compatible : ∀ i j, i ≠ j → (s.threads i).pc ≠ .outside → (s.threads j).pc ≠ .outside →
    Compatible s.cq.size (s.threads i).maxRequests (s.threads i).minRequests
      (s.threads j).minRequests
  safe : ∀ j, (s.threads j).pc = .poll →
    s.Watched (fun _ => True) s.cq.queue.length (s.threads j).minRequests
  draining : ∀ i j tail, (s.threads i).pc = .commit tail → (s.threads j).pc = .poll →
    s.Watched (· ≠ i) (s.cq.tail - tail).toNat (s.threads j).minRequests

theorem Init.inv (h : Init s) : Inv s := by
  have hpc : ∀ i, (s.threads i).pc = .outside := fun i => by rw [h.threads i]
  refine ⟨?_, ?_, ?_, ?_, ?_, ?_, ?_, ?_⟩
  · rw [CqRing.queue, RingBuffer.window_length]
    exact h.room
  · intro i tail hi
    rw [hpc] at hi
    cases hi
  · intro i tail hi
    rw [hpc] at hi
    cases hi
  · intro i again head consumed hi
    rw [hpc] at hi
    cases hi
  · intro i hi
    exact absurd (hpc i) hi
  · intro i j _ hi
    exact absurd (hpc i) hi
  · intro j hj
    rw [hpc] at hj
    cases hj
  · intro i j tail hi
    rw [hpc] at hi
    cases hi

theorem Watched.awake {who : Fin n → Prop} {live : ℕ} {m : UInt32} (h : s.event.Awake) :
    s.Watched who live m := .inr (.inl h)

/-- Thread `i` moves and leaves the ring alone. It may drop its duty only after a look that found
too little for the others. -/
theorem Watched.setThread {w : Waiter} {who : Fin n → Prop} {live : ℕ} {m : UInt32}
    (h : s.Watched who live m)
    (howes : (s.threads i).Owes = true → w.Owes = true ∨ live < m.toNat) :
    (s.setThread i w).Watched who live m := by
  obtain hlive | hawake | ⟨k, hk, hkowes⟩ := h
  · exact .inl hlive
  · exact .awake hawake
  · by_cases hki : k = i
    · subst hki
      obtain hw | hlive := howes hkowes
      · exact .inr (.inr ⟨k, hk, by rwa [setThread_threads_self]⟩)
      · exact .inl hlive
    · exact .inr (.inr ⟨k, hk, by rwa [setThread_threads_ne _ _ hki]⟩)

/-- What a move of thread `i` to `w` has to respect; `lock` is the lock after it. -/
structure Move (s : Waiters n) (i : Fin n) (w : Waiter) (lock : Option (Fin n)) : Prop where
  positive : w.pc ≠ .outside → 0 < w.minRequests.toNat
  compatible : w.pc ≠ .outside → ∀ j, j ≠ i → (s.threads j).pc ≠ .outside →
    Compatible s.cq.size w.maxRequests w.minRequests (s.threads j).minRequests ∧
    Compatible s.cq.size (s.threads j).maxRequests (s.threads j).minRequests w.minRequests
  locked : ∀ k tail, (s.threads k).pc = .commit tail → lock = some k
  commit : ∀ tail, w.pc = .commit tail → lock = some i ∧ tail = s.cq.tail
  loaded : ∀ again head consumed, w.pc = .loadTail again head consumed →
    consumed ≤ s.consumed ∧ s.cq.head - head = UInt32.ofNat (s.consumed - consumed)
  poll : w.pc = .poll → s.cq.queue.length < w.minRequests.toNat
  duty : (s.threads i).Owes = true → w.Owes = true ∨
    ∀ j, j ≠ i → (s.threads j).pc = .poll →
      s.cq.queue.length < (s.threads j).minRequests.toNat

theorem Inv.move (h : Inv s) {w : Waiter} {lock : Option (Fin n)} (hw : Move s i w lock) :
    Inv { s.setThread i w with lock } := by
  refine ⟨h.room, ?_, ?_, ?_, ?_, ?_, ?_, ?_⟩
  · intro k tail hk
    by_cases hki : k = i
    · subst hki
      rw [setThread_threads_self] at hk
      exact (hw.commit tail hk).1
    · rw [setThread_threads_ne _ _ hki] at hk
      exact hw.locked k tail hk
  · intro k tail hk
    by_cases hki : k = i
    · subst hki
      rw [setThread_threads_self] at hk
      rw [(hw.commit tail hk).2]
      exact le_of_eq_of_le (RingBuffer.sub_toNat_eq_zero.mpr rfl) (Nat.zero_le _)
    · rw [setThread_threads_ne _ _ hki] at hk
      exact h.snapshot k tail hk
  · intro k again head consumed hk
    by_cases hki : k = i
    · subst hki
      rw [setThread_threads_self] at hk
      exact hw.loaded again head consumed hk
    · rw [setThread_threads_ne _ _ hki] at hk
      exact h.loaded k again head consumed hk
  · intro k hk
    by_cases hki : k = i
    · subst hki
      rw [setThread_threads_self] at hk ⊢
      exact hw.positive hk
    · rw [setThread_threads_ne _ _ hki] at hk ⊢
      exact h.positive k hk
  · intro k j hkj hk hj
    by_cases hki : k = i
    · subst hki
      rw [setThread_threads_self] at hk ⊢
      rw [setThread_threads_ne _ _ hkj.symm] at hj ⊢
      exact (hw.compatible hk j hkj.symm hj).1
    · rw [setThread_threads_ne _ _ hki] at hk ⊢
      by_cases hji : j = i
      · subst hji
        rw [setThread_threads_self] at hj ⊢
        exact (hw.compatible hj k hki hk).2
      · rw [setThread_threads_ne _ _ hji] at hj ⊢
        exact h.compatible k j hkj hk hj
  · intro j hj
    by_cases hji : j = i
    · subst hji
      rw [setThread_threads_self] at hj ⊢
      exact .inl (hw.poll hj)
    · rw [setThread_threads_ne _ _ hji] at hj ⊢
      exact (h.safe j hj).setThread fun ho => (hw.duty ho).imp_right fun hall => hall j hji hj
  · intro k j tail hk hj
    by_cases hki : k = i
    · subst hki
      rw [setThread_threads_self] at hk
      have hji : j ≠ k := by
        rintro rfl
        rw [setThread_threads_self, hk] at hj
        cases hj
      rw [setThread_threads_ne _ _ hji] at hj ⊢
      left
      show (s.cq.tail - tail).toNat < _
      rw [(hw.commit tail hk).2, RingBuffer.sub_toNat_eq_zero.mpr rfl]
      exact h.positive j (by rw [hj]; nofun)
    · rw [setThread_threads_ne _ _ hki] at hk
      have hsnap := h.snapshot k tail hk
      by_cases hji : j = i
      · subst hji
        rw [setThread_threads_self] at hj ⊢
        exact .inl (hsnap.trans_lt (hw.poll hj))
      · rw [setThread_threads_ne _ _ hji] at hj ⊢
        exact (h.draining k j tail hk hj).setThread fun ho =>
          (hw.duty ho).imp_right fun hall => hsnap.trans_lt (hall j hji hj)

theorem Inv.limits (h : Inv s) (hactive : (s.threads i).pc ≠ .outside) (j : Fin n) (hji : j ≠ i)
    (hj : (s.threads j).pc ≠ .outside) :
    Compatible s.cq.size (s.threads i).maxRequests (s.threads i).minRequests
      (s.threads j).minRequests ∧
    Compatible s.cq.size (s.threads j).maxRequests (s.threads j).minRequests
      (s.threads i).minRequests :=
  ⟨h.compatible i j hji.symm hactive hj, h.compatible j i hji hj hactive⟩

/-- Thread `i` goes on without a look at the ring that would free it of a duty. -/
theorem Inv.goto (h : Inv s) {pc : Pc} (hactive : (s.threads i).pc ≠ .outside)
    (hcommit : ∀ tail, pc ≠ .commit tail)
    (hloaded : ∀ again head consumed, pc ≠ .loadTail again head consumed) (hpoll : pc ≠ .poll)
    (hduty : (s.threads i).Owes = true → Waiter.Owes { s.threads i with pc } = true) :
    Inv (s.goto i pc) :=
  h.move ⟨fun _ => h.positive i hactive, fun _ => h.limits hactive, h.locked,
    fun _ heq => absurd heq (hcommit _), fun _ _ _ heq => absurd heq (hloaded _ _ _),
      fun heq => absurd heq hpoll, fun ho => .inl (hduty ho)⟩

theorem Inv.leave (h : Inv s)
    (hduty : (s.threads i).Owes = false) : Inv (s.leave i) :=
  h.move ⟨fun hout => absurd rfl hout, fun hout => absurd rfl hout, h.locked, nofun, nofun, nofun,
    fun ho => absurd ho (by rw [hduty]; nofun)⟩

theorem Inv.live_le (h : Inv s) {again : Bool} {head : UInt32} {consumed : ℕ}
    (hpc : (s.threads i).pc = .loadTail again head consumed)
    (hpass : s.cq.queue.length + (s.consumed - consumed) < 2 ^ 32) :
    s.cq.queue.length ≤ (s.cq.tail - head).toNat := by
  obtain ⟨-, hhead⟩ := h.loaded i again head consumed hpc
  have hsplit : s.cq.tail - head = (s.cq.tail - s.cq.head) + (s.cq.head - head) := by grind
  have hlen : s.cq.queue.length = (s.cq.tail - s.cq.head).toNat := RingBuffer.window_length ..
  rw [hsplit, hhead, UInt32.toNat_add, UInt32.toNat_ofNat', ← hlen, Nat.mod_eq_of_lt (by omega)]
  omega

/-- Too little for a waiter is too little for any other it goes together with. -/
theorem Inv.lt_of_lt (h : Inv s) (hij : i ≠ j) (hi : (s.threads i).pc ≠ .outside)
    (hj : (s.threads j).pc ≠ .outside)
    (hlt : s.cq.queue.length < (s.threads i).minRequests.toNat) :
    s.cq.queue.length < (s.threads j).minRequests.toNat := by
  obtain hbig | ⟨hle, -⟩ := h.compatible i j hij hi hj
  · exact h.room.trans_lt hbig
  · exact hlt.trans_le (UInt32.le_iff_toNat_le.mp hle)

theorem Inv.loadTail (h : Inv s) (hc : s.Cautious (.loadTail i))
    (hs : s.step (.loadTail i) = some t) : Inv t := by
  simp only [step] at hs
  split at hs
  case h_2 => cases hs
  case h_1 again head consumed hpc =>
    have hpass : s.cq.queue.length + (s.consumed - consumed) < 2 ^ 32 := by
      simpa only [Cautious, passed, hpc] using hc
    have hle := h.live_le hpc hpass
    have hactive : (s.threads i).pc ≠ .outside := by
      rw [hpc]
      nofun
    by_cases henough : (s.threads i).minRequests ≤ s.cq.tail - head
    · rw [if_pos henough] at hs
      cases hs
      refine h.goto hactive nofun nofun nofun ?_
      intro ho
      simp only [Waiter.Owes, hpc, Bool.and_eq_true] at ho ⊢
      exact ⟨ho.1, trivial⟩
    · -- the look that frees the thread of its duty
      have hshort : s.cq.queue.length < (s.threads i).minRequests.toNat := by
        rw [UInt32.le_iff_toNat_le] at henough
        omega
      have hothers : ∀ j, j ≠ i → (s.threads j).pc = .poll →
          s.cq.queue.length < (s.threads j).minRequests.toNat := by
        intro j hji hj
        refine h.lt_of_lt hji.symm hactive ?_ hshort
        rw [hj]
        nofun
      rw [if_neg henough] at hs
      split_ifs at hs
      · cases hs
        exact h.move ⟨fun _ => h.positive i hactive, fun _ => h.limits hactive,
          h.locked, nofun, nofun, fun _ => hshort, fun _ => .inr hothers⟩
      · cases hs
        exact h.move ⟨fun _ => h.positive i hactive, fun _ => h.limits hactive,
          h.locked, nofun, nofun, nofun, fun _ => .inr hothers⟩

theorem Inv.call (h : Inv s) {maxRequests minRequests : UInt32}
    (hc : s.Cautious (.call i maxRequests minRequests))
    (hs : s.step (.call i maxRequests minRequests) = some t) : Inv t := by
  obtain ⟨⟨hout, hpos⟩, hs⟩ := Option.ite_none_right_eq_some.mp hs
  split_ifs at hs
  · cases hs
    exact h
  · cases hs
    have howes : (s.threads i).Owes = false := by simp [Waiter.Owes, hout]
    exact h.move ⟨fun _ => UInt32.lt_iff_toNat_lt.mp hpos, fun _ => hc, h.locked, nofun, nofun,
      nofun, fun ho => absurd ho (by rw [howes]; nofun)⟩

theorem Inv.loadHead (h : Inv s) (hs : s.step (.loadHead i) = some t) : Inv t := by
  simp only [step] at hs
  split at hs
  case h_2 => cases hs
  case h_1 again hpc =>
    cases hs
    have hactive : (s.threads i).pc ≠ .outside := by
      rw [hpc]
      nofun
    refine h.move ⟨fun _ => h.positive i hactive, fun _ => h.limits hactive,
      h.locked, nofun, ?_, nofun, ?_⟩
    · intro again' head consumed heq
      cases heq
      refine ⟨le_rfl, ?_⟩
      rw [UInt32.sub_self, Nat.sub_self]
      rfl
    · intro ho
      left
      simp only [Waiter.Owes, hpc, Bool.and_eq_true] at ho ⊢
      cases again with
      | false => exact ⟨ho.1, rfl⟩
      | true => exact absurd ho.2 (by decide)

theorem Inv.enter (h : Inv s) {ret : Except Int32 Unit} (hs : s.step (.enter i ret) = some t) :
    Inv t := by
  obtain ⟨hpc, hs⟩ := Option.ite_none_right_eq_some.mp hs
  have howes : (s.threads i).Owes = false := by simp [Waiter.Owes, hpc]
  have hnext : Inv (s.goto i (.loadHead true)) :=
    h.goto (by rw [hpc]; nofun) nofun nofun nofun
      fun ho => absurd ho (by rw [howes]; nofun)
  cases ret with
  | ok =>
    cases hs
    exact hnext
  | error errno =>
    cases hs
    split_ifs
    · exact hnext
    · exact h.leave howes

theorem Inv.poll (h : Inv s) {ret : Except Int32 Unit} (hs : s.step (.poll i ret) = some t) :
    Inv t := by
  obtain ⟨hpc, hs⟩ := Option.ite_none_right_eq_some.mp hs
  have howes : (s.threads i).Owes = false := by simp [Waiter.Owes, hpc]
  have hnext : ∀ {pc}, (∀ tail, pc ≠ .commit tail) → (∀ b hd c, pc ≠ .loadTail b hd c) →
      pc ≠ .poll → Inv (s.goto i pc) := fun hcommit hload hpoll =>
    h.goto (by rw [hpc]; nofun) hcommit hload hpoll
      fun ho => absurd ho (by rw [howes]; nofun)
  cases ret with
  | ok =>
    obtain ⟨-, hs⟩ := Option.ite_none_right_eq_some.mp hs
    cases hs
    exact hnext nofun nofun nofun
  | error errno =>
    cases hs
    split_ifs
    · exact hnext nofun nofun nofun
    · exact h.leave howes

theorem Inv.read (h : Inv s) (hs : s.step (.read i) = some t) : Inv t := by
  obtain ⟨hpc, hs⟩ := Option.ite_none_right_eq_some.mp hs
  have howes : (s.threads i).Owes = false := by simp [Waiter.Owes, hpc]
  have hactive : (s.threads i).pc ≠ .outside := by
    rw [hpc]
    nofun
  have hmove : Inv (s.setThread i { s.threads i with
      pc := .loadHead false
      signalled := decide (0 < s.event.value) }) :=
    h.move ⟨fun _ => h.positive i hactive, fun _ => h.limits hactive,
      h.locked, nofun, nofun, nofun, fun ho => absurd ho (by rw [howes]; nofun)⟩
  generalize hu : s.setThread i _ = u at hmove hs
  have hevent : u.event = s.event := by
    rw [← hu]
    rfl
  have hduty : s.event.Awake → s.event.read.Awake ∨ (u.threads i).Owes = true := by
    rintro (hvalue | hpending)
    · right
      rw [← hu, setThread_threads_self]
      simpa [Waiter.Owes] using hvalue
    · exact .inl (.inr hpending)
  have hwatched : ∀ {who : Fin n → Prop} {live : ℕ} {m : UInt32}, who i →
      u.Watched who live m → ({ u with event := s.event.read } : Waiters n).Watched who live m := by
    intro who live m hi hw
    obtain hlive | hawake | howed := hw
    · exact .inl hlive
    · rw [hevent] at hawake
      obtain hstill | ho := hduty hawake
      · exact .awake hstill
      · exact .inr (.inr ⟨i, hi, ho⟩)
    · exact .inr (.inr howed)
  cases hs
  refine ⟨hmove.room, hmove.locked, hmove.snapshot, hmove.loaded, hmove.positive,
    hmove.compatible, ?_, ?_⟩
  · intro j hj
    exact hwatched trivial (hmove.safe j hj)
  · intro k j tail hk hj
    refine hwatched ?_ (hmove.draining k j tail hk hj)
    rintro rfl
    rw [← hu, setThread_threads_self] at hk
    cases hk

theorem Inv.beginDrain (h : Inv s) (hs : s.step (.beginDrain i) = some t) : Inv t := by
  obtain ⟨⟨hpc, hlock⟩, hs⟩ := Option.ite_none_right_eq_some.mp hs
  have hactive : (s.threads i).pc ≠ .outside := by
    rw [hpc]
    nofun
  cases hs
  refine h.move ⟨fun _ => h.positive i hactive, fun _ => h.limits hactive, ?_, ?_, nofun, nofun, ?_⟩
  · intro k tail hk
    have := h.locked k tail hk
    rw [hlock] at this
    cases this
  · intro tail heq
    cases heq
    exact ⟨rfl, rfl⟩
  · intro ho
    left
    simp only [Waiter.Owes, hpc, Bool.and_eq_true] at ho ⊢
    exact ⟨ho.1, trivial⟩

/-- A drain consumes CQEs from the head on, and leaves only what came after its snapshot unless it
has consumed `max_requests`. -/
theorem Inv.commit_spec (h : Inv s) {tail : UInt32} (hpc : (s.threads i).pc = .commit tail) :
    ∃ heap cq scan, drainCq s.heap { s.cq with tail } (s.threads i).maxRequests = (heap, cq, scan) ∧
      (cq.head - s.cq.head).toNat + (s.cq.tail - cq.head).toNat = (s.cq.tail - s.cq.head).toNat ∧
      ((s.cq.tail - cq.head).toNat = (s.cq.tail - tail).toNat ∨
        (s.threads i).maxRequests.toNat ≤ (cq.head - s.cq.head).toNat) := by
  have hsnap := h.snapshot i tail hpc
  rw [CqRing.queue, RingBuffer.window_length] at hsnap
  obtain ⟨heap, head, scan, es, hrun, hqueue, hroom, hbatch, -, -, hrest⟩ :=
    drainCq_snapshot s.heap s.cq (s.threads i).maxRequests hsnap
  have hcut := RingBuffer.sub_toNat_cut hroom
  refine ⟨heap, _, scan, hrun, hcut, ?_⟩
  by_cases hmax : scan.batch.length < (s.threads i).maxRequests.toNat
  · left
    rw [← hrest hmax]
    rfl
  · right
    have hreal : scan.batch.length ≤ es.length := by
      rw [hbatch]
      exact List.length_filterMap_le ..
    have hlen := congrArg List.length hqueue
    rw [List.length_append, CqRing.queue, CqRing.queue, RingBuffer.window_length,
      RingBuffer.window_length] at hlen
    have hconsumed : (s.cq.tail - s.cq.head).toNat = es.length + (s.cq.tail - head).toNat := hlen
    show (s.threads i).maxRequests.toNat ≤ (head - s.cq.head).toNat
    omega

theorem Inv.commit (h : Inv s) (hs : s.step (.commit i) = some t) : Inv t := by
  simp only [step] at hs
  split at hs
  case h_2 => cases hs
  case h_1 tail hpc =>
    obtain ⟨heap, cq, scan, hrun, hlen, hleft⟩ := h.commit_spec hpc
    have hactive : (s.threads i).pc ≠ .outside := by
      rw [hpc]
      nofun
    have hothers : ∀ {k}, ((s.leave i).threads k).pc ≠ .outside → k ≠ i ∧
        (s.leave i).threads k = s.threads k := by
      intro k hk
      have hki : k ≠ i := by
        rintro rfl
        rw [Waiters.leave, setThread_threads_self] at hk
        exact hk rfl
      exact ⟨hki, setThread_threads_ne _ _ hki⟩
    have hnone : ∀ {k tail}, ((s.leave i).threads k).pc ≠ .commit tail := by
      intro k tail hk
      obtain ⟨hki, hsame⟩ := hothers (k := k) (by rw [hk]; nofun)
      rw [hsame] at hk
      have hlock := h.locked i _ hpc
      rw [h.locked k _ hk] at hlock
      exact hki (Option.some.inj hlock)
    have hlive : s.cq.queue.length = (s.cq.tail - s.cq.head).toNat := RingBuffer.window_length ..
    have hlive' : (s.cq.commit cq.head).queue.length = (s.cq.tail - cq.head).toNat :=
      RingBuffer.window_length ..
    rw [hrun] at hs
    cases hs
    refine ⟨?_, fun k tail hk => absurd hk hnone, fun k tail hk => absurd hk hnone, ?_, ?_, ?_, ?_,
      fun k j tail hk => absurd hk hnone⟩
    · have hroom := h.room
      show (s.cq.commit cq.head).queue.length ≤ 2 ^ s.cq.size.log
      omega
    · intro k again head consumed hk
      obtain ⟨hki, hsame⟩ := hothers (k := k) (by rw [hk]; nofun)
      have hk : (s.threads k).pc = .loadTail again head consumed := hsame ▸ hk
      obtain ⟨hle, hhead⟩ := h.loaded k again head consumed hk
      refine ⟨hle.trans (Nat.le_add_right ..), ?_⟩
      show cq.head - head = UInt32.ofNat (s.consumed + (cq.head - s.cq.head).toNat - consumed)
      have hsplit : cq.head - head = (s.cq.head - head) + (cq.head - s.cq.head) := by grind
      rw [hsplit, hhead, Nat.sub_add_comm hle, UInt32.ofNat_add, UInt32.ofNat_toNat]
    · intro k hk
      obtain ⟨-, hsame⟩ := hothers hk
      have hk' : (s.threads k).pc ≠ .outside := hsame ▸ hk
      show 0 < ((s.leave i).threads k).minRequests.toNat
      rw [hsame]
      exact h.positive k hk'
    · intro k j hkj hk hj
      obtain ⟨-, hsame⟩ := hothers hk
      obtain ⟨-, hsame'⟩ := hothers hj
      have hk' : (s.threads k).pc ≠ .outside := hsame ▸ hk
      have hj' : (s.threads j).pc ≠ .outside := hsame' ▸ hj
      show Compatible s.cq.size ((s.leave i).threads k).maxRequests
        ((s.leave i).threads k).minRequests ((s.leave i).threads j).minRequests
      rw [hsame, hsame']
      exact h.compatible k j hkj hk' hj'
    · intro j hj
      obtain ⟨hji, hsame⟩ := hothers (k := j) (by rw [hj]; nofun)
      have hj : (s.threads j).pc = .poll := hsame ▸ hj
      show Watched _ _ (s.cq.commit cq.head).queue.length ((s.leave i).threads j).minRequests
      rw [hsame, hlive']
      obtain hall | hmax := hleft
      · rw [hall]
        obtain hlt | hawake | ⟨k, hki, hk⟩ := h.draining i j tail hpc hj
        · exact .inl hlt
        · exact .inr (.inl hawake)
        · refine .inr (.inr ⟨k, trivial, ?_⟩)
          show ((s.leave i).threads k).Owes = true
          rw [Waiters.leave, setThread_threads_ne _ _ hki]
          exact hk
      · left
        have hroom := h.room
        have hjout : (s.threads j).pc ≠ .outside := by
          rw [hj]
          nofun
        obtain hbig | ⟨-, hsum⟩ := h.compatible i j hji.symm hactive hjout <;> omega

theorem Inv.post (h : Inv s) {e : Cqe} (hs : s.step (.post e) = some t) : Inv t := by
  obtain ⟨hfull, hs⟩ := Option.ite_none_left_eq_some.mp hs
  have hroom := CqRing.lt_of_not_full hfull
  have hlen : (s.cq.post e).queue.length = s.cq.queue.length + 1 := by
    rw [CqRing.queue_post e hfull, List.length_append]
    rfl
  have hlive : s.cq.queue.length = (s.cq.tail - s.cq.head).toNat := RingBuffer.window_length ..
  cases hs
  refine ⟨?_, h.locked, ?_, h.loaded, h.positive, h.compatible,
    fun j _ => .awake (EventCounter.awake_announce _ _),
    fun k j tail _ _ => .awake (EventCounter.awake_announce _ _)⟩
  · show (s.cq.post e).queue.length ≤ 2 ^ s.cq.size.log
    omega
  · intro k tail hk
    have hsnap := h.snapshot k tail hk
    have hpow := s.cq.size.pow_le
    show (s.cq.tail + 1 - tail).toNat ≤ (s.cq.post e).queue.length
    rw [RingBuffer.sub_toNat_succ (by omega)]
    omega

theorem Inv.signal (h : Inv s) {rest : List Cqe} (hs : s.step (.signal rest) = some t) : Inv t := by
  obtain ⟨event, hevent, rfl⟩ := Option.map_eq_some_iff.mp hs
  exact ⟨h.room, h.locked, h.snapshot, h.loaded, h.positive, h.compatible,
    fun j _ => .awake (.inl (EventCounter.value_signal hevent)),
    fun i j tail _ _ => .awake (.inl (EventCounter.value_signal hevent))⟩

theorem Inv.step (h : Inv s) {a : Action n} (hc : s.Cautious a) (hs : s.step a = some t) :
    Inv t := by
  cases a with
  | call i maxRequests minRequests => exact h.call hc hs
  | loadHead i => exact h.loadHead hs
  | loadTail i => exact h.loadTail hc hs
  | enter i ret => exact h.enter hs
  | poll i ret => exact h.poll hs
  | read i => exact h.read hs
  | beginDrain i => exact h.beginDrain hs
  | commit i => exact h.commit hs
  | post e => exact h.post hs
  | signal rest => exact h.signal hs

theorem inv_of_reachable (h : (system n).ReachableBy Cautious s) : Inv s :=
  h.invariant (fun _ => Init.inv) fun _ _ _ hi hc hs => hi.step hc hs

theorem signalled_of_owes {w : Waiter} (h : w.Owes = true) : w.signalled = true :=
  ((Bool.and_eq_true _ _).mp h).1

/-- No waiter sleeps over completions that are enough for it, in any run where all the calls under
way go together. -/
theorem no_lost_wakeup (h : (system n).ReachableBy Cautious s) (i : Fin n) : ¬s.Lost i := by
  intro hl
  obtain hlt | (hvalue | hpending) | ⟨k, -, hk⟩ := (inv_of_reachable h).safe i hl.blocked.1
  · exact absurd hl.enough (Nat.not_le.mpr hlt)
  · exact absurd hl.blocked.2 hvalue.ne'
  · exact absurd hl.noSignal hpending
  · have hread := signalled_of_owes hk
    rw [hl.noReader k] at hread
    cases hread

def twoSlots : Waiters 2 where
  heap := World.initial.heap
  cq := ⟨.two, 0, 0, fun _ => ⟨0, 0⟩⟩
  event := ⟨0, []⟩
  lock := none
  consumed := 0
  threads := fun _ => {}

theorem init_twoSlots : Init twoSlots := ⟨by decide, rfl, fun _ => rfl⟩

/-- A call with an empty ring, up to its `poll()`. -/
def sleep (i : Fin 2) (maxRequests minRequests : UInt32) : List (Action 2) :=
  [.call i maxRequests minRequests, .loadHead i, .loadTail i, .enter i (.ok ()), .loadHead i,
    .loadTail i]

def wake (i : Fin 2) : List (Action 2) :=
  [.poll i (.ok ()), .read i, .loadHead i, .loadTail i, .beginDrain i, .commit i]

/-- Two waiters for one completion each; the second has drained two when the first still sleeps. -/
theorem no_lost_wakeup_two :
    ∃ s, (system 2).exec twoSlots (sleep 0 0 1 ++ sleep 1 0 1 ++
        [.post ⟨16, 0⟩, .post ⟨32, 0⟩, .signal []] ++ wake 1) = some s ∧
      s.Blocked 0 ∧ ¬s.Lost 0 := by
  have hrun : ((system 2).exec twoSlots (sleep 0 0 1 ++ sleep 1 0 1 ++
      [.post ⟨16, 0⟩, .post ⟨32, 0⟩, .signal []] ++ wake 1)).any (fun s => s.Blocked 0) = true := by
    decide +kernel
  obtain ⟨s, hs, hblocked⟩ := (Option.any_eq_true _ _).mp hrun
  have hmeets : (system 2).Meets Cautious twoSlots (sleep 0 0 1 ++ sleep 1 0 1 ++
      [.post ⟨16, 0⟩, .post ⟨32, 0⟩, .signal []] ++ wake 1) := by decide +kernel
  exact ⟨s, hs, of_decide_eq_true hblocked,
    no_lost_wakeup (.exec (.init init_twoSlots) hmeets hs) 0⟩

/-- With `max_requests=1` the second waiter takes one completion of two and returns; the first
sleeps over the other. -/
theorem lost_wakeup_max_one : ∃ s : Waiters 2, (system 2).Reachable s ∧ s.Lost 0 := by
  have hrun : ((system 2).exec twoSlots (sleep 0 1 1 ++ sleep 1 1 1 ++
      [.post ⟨16, 0⟩, .post ⟨32, 0⟩, .signal []] ++ wake 1)).any (fun s => s.Lost 0) = true := by
    decide +kernel
  obtain ⟨s, hs, hlost⟩ := (Option.any_eq_true _ _).mp hrun
  exact ⟨s, .exec (.init init_twoSlots) hs, of_decide_eq_true hlost⟩

end Waiters

end Caio.Uring
