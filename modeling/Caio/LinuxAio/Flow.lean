import Mathlib.Tactic.SplitIfs
import Caio.Lib.Counting
import Caio.Lib.Table
import Caio.LinuxAio.World

/-!
# Where an accepted Operation is

Accepted by `io_submit`, an Operation goes from the kernel to a call, and there through the stores
and the callback to the release of its reference. `Moves` says what a step moves from place to
place. -/

namespace Caio.LinuxAio

open Counting

/-- The events whose Operations a call has not finalised yet. -/
def CallPc.left : CallPc → List IoEvent
  | .next left | .settled _ left | .calling _ _ left | .called _ _ left => left
  | .returned _ => []

def CallPc.leftOf (p : OpPtr) (pc : CallPc) : ℕ := pc.left.countP fun ev => ev.data = p

/-- The call still has the reference of `submit` on `p`. -/
def CallPc.holds (p : OpPtr) : CallPc → Bool
  | .settled ev _ | .calling _ ev _ | .called _ ev _ => ev.data = p
  | .next _ | .returned _ => false

/-- The call is about to look for the callback of `p`. -/
def CallPc.settledOn (p : OpPtr) : CallPc → Bool
  | .settled ev _ => ev.data = p
  | _ => false

def CallPc.Single : CallPc → Prop
  | .next left => left.length ≤ 1
  | .settled _ left | .calling _ _ left | .called _ _ left => left = []
  | .returned _ => True

namespace World

variable {s t : World} {i : ℕ} {c : Call} {p : OpPtr}

def undelivered (s : World) (p : OpPtr) : ℕ :=
  s.inFlight.countP (·.2 = p) + s.ring.countP (·.2.data = p)

/-- Calls have taken the event and will finalise the Operation. -/
def delivering (s : World) (p : OpPtr) : ℕ :=
  (s.calls.map (·.pc.leftOf p)).sum

def finalisations (s : World) (p : OpPtr) : ℕ := s.finalised.countP (·.2.data = p)

def invocations (s : World) (p : OpPtr) : ℕ := s.invoked.countP (·.1 = p)

def releasing (s : World) (p : OpPtr) : ℕ := s.calls.countP (·.pc.holds p)

def lookingUp (s : World) (p : OpPtr) : ℕ := s.calls.countP (·.pc.settledOn p)

/-- How often `p` goes from one place to the next in a step. -/
structure Flow where
  accept : ℕ := 0
  deliver : ℕ := 0
  settle : ℕ := 0
  release : ℕ := 0

structure Moves (s t : World) (p : OpPtr) (f : Flow) : Prop where
  accepted : t.accepted.count p = s.accepted.count p + f.accept
  inProgress : (t.heap.ops p).inProgress.toNat = (s.heap.ops p).inProgress.toNat + f.accept
  undelivered : t.undelivered p + f.deliver = s.undelivered p + f.accept
  delivering : t.delivering p + f.settle = s.delivering p + f.deliver
  finalised : t.finalisations p = s.finalisations p + f.settle
  releasing : t.releasing p + f.release = s.releasing p + f.settle
  released : t.released.count p = s.released.count p + f.release
  refs : (t.heap.ops p).refcnt + f.release + s.users p =
    (s.heap.ops p).refcnt + f.accept + t.users p
  invoked : t.invocations p + t.lookingUp p ≤ s.invocations p + s.lookingUp p + f.settle

/-- Every Operation is accepted once at most, and then it is in one place. -/
structure Accounted (s : World) (p : OpPtr) : Prop where
  claimed : s.accepted.count p = (s.heap.ops p).inProgress.toNat
  places : s.accepted.count p = s.undelivered p + s.delivering p + s.finalisations p
  finalised : s.finalisations p = s.releasing p + s.released.count p
  refs : (s.heap.ops p).refcnt + s.released.count p = s.users p + s.accepted.count p
  invoked : s.invocations p + s.lookingUp p ≤ s.finalisations p

theorem Init.accounted (h : Init s) (p : OpPtr) : Accounted s p := by
  refine ⟨?_, ?_, ?_, ?_, ?_⟩
  · rw [h.accepted, h.inProgress]
    rfl
  · rw [h.accepted, undelivered, delivering, finalisations, h.inFlight, h.ring, h.calls,
      h.finalised]
    rfl
  · rw [finalisations, releasing, h.finalised, h.calls, h.released]
    rfl
  · rw [h.refcnt, h.released, h.accepted]
  · rw [invocations, lookingUp, h.invoked, h.calls]
    exact Nat.zero_le _

theorem Moves.accounted {f : Flow} (hm : Moves s t p f) (h : Accounted s p) : Accounted t p := by
  obtain ⟨haccepted, hprogress, hundelivered, hdelivering, hfinalised, hreleasing, hreleased, hrefs,
    hinvoked⟩ := hm
  obtain ⟨hclaimed, hplaces, hfin, href, hinv⟩ := h
  refine ⟨?_, ?_, ?_, ?_, ?_⟩
  · omega
  · omega
  · omega
  · omega
  · omega

theorem Accounted.accepted_le (h : Accounted s p) : s.accepted.count p ≤ 1 := by
  rw [h.claimed]
  exact Bool.toNat_le _

/-! ## Frames -/

theorem onCall_eq_some {f : Call → Option World} (h : s.onCall i f = some t) :
    ∃ c, s.calls[i]? = some c ∧ f c = some t := Option.bind_eq_some_iff.mp h

theorem delivering_append (s : World) (p : OpPtr) (c : Call) :
    ((s.calls ++ [c]).map (·.pc.leftOf p)).sum = s.delivering p + c.pc.leftOf p := by
  rw [List.map_append, List.sum_append, List.map_singleton, List.sum_singleton]
  rfl

theorem delivering_set (hc : s.calls[i]? = some c) (pc : CallPc) (p : OpPtr) :
    (s.setCall i c pc).delivering p + c.pc.leftOf p = s.delivering p + pc.leftOf p :=
  sum_map_set hc { c with pc } (·.pc.leftOf p)

theorem releasing_set (hc : s.calls[i]? = some c) (pc : CallPc) (p : OpPtr) :
    (s.setCall i c pc).releasing p + (c.pc.holds p).toNat =
      s.releasing p + (pc.holds p).toNat :=
  countP_set hc { c with pc } (·.pc.holds p)

theorem lookingUp_set (hc : s.calls[i]? = some c) (pc : CallPc) (p : OpPtr) :
    (s.setCall i c pc).lookingUp p + (c.pc.settledOn p).toNat =
      s.lookingUp p + (pc.settledOn p).toNat :=
  countP_set hc { c with pc } (·.pc.settledOn p)

theorem Moves.finish (s : World) (method : Method) (value : Except PyErr Int) (p : OpPtr) :
    Moves s (s.finish method value) p {} := by
  refine ⟨rfl, rfl, rfl, ?_, rfl, ?_, rfl, rfl, ?_⟩
  · exact delivering_append s p _
  · exact countP_append_one s.calls _ _
  · exact Nat.le_of_eq (congrArg (s.invocations p + ·) (countP_append_one s.calls _ _))

theorem Moves.take (s : World) (method : Method) (events : List IoEvent)
    (inFlight : List (CtxId × OpPtr)) (ring : List (CtxId × IoEvent))
    (hkernel : inFlight.countP (·.2 = p) + ring.countP (·.2.data = p) +
      (CallPc.next events).leftOf p = s.undelivered p) :
    Moves s { s with
      inFlight := inFlight
      ring := ring
      calls := s.calls ++ [{ method, taken := events, pc := .next events }] } p
      { deliver := (CallPc.next events).leftOf p } := by
  refine ⟨rfl, rfl, hkernel, ?_, rfl, ?_, rfl, rfl, ?_⟩
  · exact delivering_append s p _
  · exact countP_append_one s.calls _ _
  · exact Nat.le_of_eq (congrArg (s.invocations p + ·) (countP_append_one s.calls _ _))

theorem Moves.heap (s : World) (p : OpPtr) {heap : Heap}
    (hprogress : (heap.ops p).inProgress = (s.heap.ops p).inProgress)
    (hrefs : (heap.ops p).refcnt = (s.heap.ops p).refcnt) : Moves s { s with heap } p {} := by
  refine ⟨rfl, ?_, rfl, rfl, rfl, rfl, rfl, ?_, Nat.le_refl _⟩
  · exact congrArg Bool.toNat hprogress
  · exact congrArg (· + 0 + s.users p) hrefs

/-! ## The kernel -/

theorem takeEvents_countP (k : CtxId) (n : ℕ) (ring : List (CtxId × IoEvent))
    (f : IoEvent → Bool) :
    (takeEvents k n ring).2.countP (fun e => f e.2) + (takeEvents k n ring).1.countP f =
      ring.countP fun e => f e.2 := by
  induction ring generalizing n with
  | nil => cases n <;> rfl
  | cons e ring ih =>
    cases n with
    | zero => rfl
    | succ n =>
      rw [takeEvents]
      by_cases hk : e.1 = k
      · rw [if_pos hk]
        have := ih n
        simp only [List.countP_cons]
        omega
      · rw [if_neg hk]
        have := ih (n + 1)
        simp only [List.countP_cons]
        omega

theorem Moves.submit (s : World) (p : OpPtr) (k : CtxId) (args : List Arg)
    (answer : Except Int32 ℕ) (hs : s.step (.submit k args answer) = some t) :
    Moves s t p
      { accept := (LinuxAio.submit s.heap k (s.ctxs k) args answer).accepted.count p } := by
  cases hs
  -- an Operation occurs once at most in what the call accepts, so its numbers move by 0 or 1
  have hfates := submit_ops s.heap k (s.ctxs k) args answer p
  have hnodup := submit_nodup s.heap k (s.ctxs k) args answer
  generalize LinuxAio.submit s.heap k (s.ctxs k) args answer = r at hfates hnodup
  have hnumbers : (r.heap.ops p).inProgress.toNat =
        (s.heap.ops p).inProgress.toNat + r.accepted.count p ∧
      (r.heap.ops p).refcnt = (s.heap.ops p).refcnt + r.accepted.count p := by
    rcases hfates with ⟨hmem, hfree, hp⟩ | ⟨hmem, hfree, hp⟩ | ⟨hmem, hp⟩
    · rw [hp, hfree, List.count_eq_one_of_mem hnodup hmem]
      exact ⟨rfl, rfl⟩
    · rw [hp, hfree, List.count_eq_zero.mpr hmem]
      exact ⟨rfl, rfl⟩
    · rw [hp, List.count_eq_zero.mpr hmem]
      exact ⟨rfl, rfl⟩
  refine ⟨List.count_append, hnumbers.1, ?_, rfl, rfl, rfl, rfl, ?_, Nat.le_refl _⟩
  · have hmap : (r.accepted.map (k, ·)).countP (·.2 = p) = r.accepted.count p := by
      rw [List.countP_map, List.count]
      apply List.countP_congr
      intro q _
      exact (decide_eq_true_iff.trans beq_iff_eq.symm)
    show (s.inFlight ++ r.accepted.map (k, ·)).countP (·.2 = p) + s.ring.countP (·.2.data = p) + 0 =
      s.inFlight.countP (·.2 = p) + s.ring.countP (·.2.data = p) + r.accepted.count p
    rw [List.countP_append, hmap]
    omega
  · exact congrArg (· + 0 + s.users p) hnumbers.2

/-! ## What a step does to the calls -/

/-- What call `i` itself does next. -/
inductive Goes (i : ℕ) (c : Call) : Action → CallPc → Prop
  | leave : c.pc = .next [] → Goes i c (.settle i) c.leave
  | settle {ev left} : c.pc = .next (ev :: left) → Goes i c (.settle i) (.settled ev left)
  | skip {ev left} : c.pc = .settled ev left → Goes i c (.callback i) (.called none ev left)
  | call {ev left} (callback) : c.pc = .settled ev left →
    Goes i c (.callback i) (.calling callback ev left)
  | callbackReturns {callback ev left} (exc) : c.pc = .calling callback ev left →
    Goes i c (.callbackReturns i exc) (.called exc ev left)
  | release {exc ev left} : c.pc = .called exc ev left → Goes i c (.release i) (c.after exc ev left)

/-- A step starts a call, takes one further, or does nothing to the calls. -/
inductive StepCalls (s t : World) : Action → Prop
  | same {a} (hother : ∀ i exc, a ≠ .callbackReturns i exc) (hcalls : t.calls = s.calls)
      (hring : t.ring = s.ring) (hfinalised : t.finalised = s.finalised) : StepCalls s t a
  | complete (k p res) (hcalls : t.calls = s.calls) (hring : t.ring = s.ring ++ [(k, ⟨p, res⟩)])
      (hfinalised : t.finalised = s.finalised) : StepCalls s t (.complete k p res)
  /-- The call ends before it has an event. -/
  | returned {a} (method value) (hother : ∀ i exc, a ≠ .callbackReturns i exc)
      (hcalls : t.calls = s.calls ++ [⟨method, [], .returned value⟩]) (hring : t.ring = s.ring)
      (hfinalised : t.finalised = s.finalised) : StepCalls s t a
  | cancel (k p res) (hcalls : t.calls = s.calls ++ [⟨.cancel, [⟨p, res⟩], .next [⟨p, res⟩]⟩])
      (hring : t.ring = s.ring) (hfinalised : t.finalised = s.finalised) :
      StepCalls s t (.cancel k p (.ok res))
  | processEvents (k max min answer) (n : ℕ) (hcalls : t.calls = s.calls ++
        [⟨.processEvents, (takeEvents k n s.ring).1, .next (takeEvents k n s.ring).1⟩])
      (hring : t.ring = (takeEvents k n s.ring).2) (hfinalised : t.finalised = s.finalised) :
      StepCalls s t (.processEvents k max min answer)
  | goes {a} (i c pc) (hc : s.calls[i]? = some c) (hgoes : Goes i c a pc)
      (hcalls : t.calls = (s.setCall i c pc).calls) (hring : t.ring = s.ring)
      (hsub : s.finalised ⊆ t.finalised)
      (hsettled : ∀ ev left, pc = .settled ev left → (c.method, ev) ∈ t.finalised) :
      StepCalls s t a

theorem step_calls {a : Action} (hs : s.step a = some t) : StepCalls s t a := by
  cases a with
  | submit k args answer | setCallback q callback =>
    cases hs
    exact .same (by simp) rfl rfl rfl
  | incref q | decref q =>
    obtain ⟨-, hs⟩ := Option.ite_none_right_eq_some.mp hs
    cases hs
    exact .same (by simp) rfl rfl rfl
  | complete k q res =>
    obtain ⟨-, hs⟩ := Option.ite_none_right_eq_some.mp hs
    cases hs
    exact .complete k q res rfl rfl rfl
  | cancel k q answer =>
    simp only [World.step] at hs
    split at hs
    · cases hs
      exact .returned _ _ (by simp) rfl rfl rfl
    · split at hs
      case h_1 errno =>
        cases hs
        exact .returned _ _ (by simp) rfl rfl rfl
      case h_2 res =>
        obtain ⟨-, hs⟩ := Option.ite_none_right_eq_some.mp hs
        cases hs
        exact .cancel k q res rfl rfl rfl
  | processEvents k maxRequests minRequests answer =>
    simp only [World.step] at hs
    split at hs
    · cases hs
      exact .returned _ _ (by simp) rfl rfl rfl
    · split at hs
      case h_1 exc =>
        cases hs
        exact .returned _ _ (by simp) rfl rfl rfl
      case h_2 errno _ =>
        cases hs
        exact .returned _ _ (by simp) rfl rfl rfl
      case h_3 max n _ =>
        obtain ⟨-, hs⟩ := Option.ite_none_right_eq_some.mp hs
        cases hs
        exact .processEvents k _ _ _ n rfl rfl rfl
  | settle i =>
    obtain ⟨c, hc, hs⟩ := onCall_eq_some hs
    split at hs
    case h_1 hpc =>
      cases hs
      exact .goes i c _ hc (.leave hpc) rfl rfl (List.Subset.refl _) (by simp [Call.leave])
    case h_2 ev left hpc =>
      cases hs
      refine .goes i c _ hc (.settle hpc) rfl rfl (List.subset_append_left ..) fun e rest heq => ?_
      cases heq
      exact List.mem_append_right _ (List.mem_singleton.mpr rfl)
    case h_3 => cases hs
  | callback i =>
    obtain ⟨c, hc, hs⟩ := onCall_eq_some hs
    split at hs
    case h_1 ev left hpc =>
      split at hs
      · cases hs
        exact .goes i c _ hc (.skip hpc) rfl rfl (List.Subset.refl _) (by simp)
      · cases hs
        exact .goes i c _ hc (.call _ hpc) rfl rfl (List.Subset.refl _) (by simp)
    case h_2 => cases hs
  | callbackReturns i exc =>
    obtain ⟨c, hc, hs⟩ := onCall_eq_some hs
    split at hs
    case h_1 callback ev left hpc =>
      cases hs
      exact .goes i c _ hc (.callbackReturns exc hpc) rfl rfl (List.Subset.refl _) (by simp)
    case h_2 => cases hs
  | release i =>
    obtain ⟨c, hc, hs⟩ := onCall_eq_some hs
    split at hs
    case h_1 exc ev left hpc =>
      cases hs
      refine .goes i c _ hc (.release hpc) rfl rfl (List.Subset.refl _) fun e rest heq => ?_
      unfold Call.after at heq
      split at heq <;> cases heq
    case h_2 => cases hs

/-! ## Calls -/

/-- A call of `cancel` has one event, and every event of a batch is left or finalised. -/
structure CallOk (s : World) (c : Call) : Prop where
  single : c.method = .cancel → c.pc.Single
  batch : ∀ ev ∈ c.taken, ev ∈ c.pc.left ∨ (c.method, ev) ∈ s.finalised

theorem CallOk.left_after (h : CallOk s c) {exc : Option PyErr} {ev : IoEvent}
    {left : List IoEvent} (hpc : c.pc = .called exc ev left) : (c.after exc ev left).left =
    left := by
  unfold Call.after
  split
  · rfl
  · rename_i hm
    have hsingle := h.single hm
    rw [hpc] at hsingle
    exact hsingle.symm
  · rename_i hm
    have hsingle := h.single hm
    rw [hpc] at hsingle
    exact hsingle.symm

def CallsOk (s : World) : Prop := ∀ c ∈ s.calls, CallOk s c

theorem CallOk.mono (h : CallOk s c) (hsub : s.finalised ⊆ t.finalised) : CallOk t c :=
  ⟨h.single, fun ev hev => (h.batch ev hev).imp_right fun hmem => hsub hmem⟩

theorem CallsOk.setCall (h : CallsOk s) (pc : CallPc) (hcalls : t.calls = (s.setCall i c pc).calls)
    (hsub : s.finalised ⊆ t.finalised) (hok : CallOk t { c with pc }) : CallsOk t := by
  intro d hd
  rw [hcalls] at hd
  rcases Table.mem_set_cases hd with rfl | ⟨j, -, hj⟩
  · exact hok
  · exact (h d (List.mem_of_getElem? hj)).mono hsub

theorem CallsOk.append (h : CallsOk s) {d : Call} (hcalls : t.calls = s.calls ++ [d])
    (hfinalised : t.finalised = s.finalised) (hok : CallOk t d) : CallsOk t := by
  intro e he
  rw [hcalls] at he
  rcases List.mem_append.mp he with he | he
  · exact (h e he).mono (by rw [hfinalised]; exact List.Subset.refl _)
  · rw [List.mem_singleton.mp he]
    exact hok

theorem CallsOk.step (h : CallsOk s) {a : Action} (hs : s.step a = some t) : CallsOk t := by
  have hsame : t.calls = s.calls → t.finalised = s.finalised → CallsOk t := by
    intro hcalls hfinalised c hc
    rw [hcalls] at hc
    exact (h c hc).mono (by rw [hfinalised]; exact List.Subset.refl _)
  cases step_calls hs with
  | same _ hcalls _ hfinalised => exact hsame hcalls hfinalised
  | complete k p res hcalls _ hfinalised => exact hsame hcalls hfinalised
  | returned method value _ hcalls _ hfinalised =>
    exact h.append hcalls hfinalised ⟨fun _ => trivial, fun _ hev => absurd hev List.not_mem_nil⟩
  | cancel k p res hcalls _ hfinalised =>
    exact h.append hcalls hfinalised ⟨fun _ => Nat.le_refl 1, fun _ => .inl⟩
  | processEvents k max min answer n hcalls _ hfinalised =>
    exact h.append hcalls hfinalised ⟨fun hm => (by cases hm), fun _ => .inl⟩
  | goes i c pc hc hgoes hcalls _ hsub hsettled =>
    have hcall := h c (List.mem_of_getElem? hc)
    have hsingle := hcall.single
    have hbatch := hcall.batch
    have hmono : ∀ {e : IoEvent} {left : List IoEvent}, e ∈ left ∨ (c.method, e) ∈ s.finalised →
        e ∈ left ∨ (c.method, e) ∈ t.finalised := fun he => he.imp_right fun hmem => hsub hmem
    apply h.setCall pc hcalls hsub
    cases hgoes with
    | leave hpc =>
      rw [hpc] at hbatch
      exact ⟨fun _ => trivial, fun e he => hmono (hbatch e he)⟩
    | settle hpc =>
      rename_i ev left
      rw [hpc] at hsingle hbatch
      refine ⟨fun hm => ?_, fun e he => ?_⟩
      · exact List.eq_nil_of_length_eq_zero (Nat.le_zero.mp (Nat.le_of_succ_le_succ (hsingle hm)))
      · -- the event is finalised, the others are left
        rcases hbatch e he with hleft | hmem
        · rcases List.mem_cons.mp hleft with rfl | hleft
          · exact .inr (hsettled e left rfl)
          · exact .inl hleft
        · exact .inr (hsub hmem)
    | skip hpc =>
      rw [hpc] at hsingle hbatch
      exact ⟨hsingle, fun e he => hmono (hbatch e he)⟩
    | call callback hpc =>
      rw [hpc] at hsingle hbatch
      exact ⟨hsingle, fun e he => hmono (hbatch e he)⟩
    | callbackReturns exc hpc =>
      rw [hpc] at hsingle hbatch
      exact ⟨hsingle, fun e he => hmono (hbatch e he)⟩
    | release hpc =>
      rename_i exc ev left
      have hleft := hcall.left_after hpc
      rw [hpc] at hbatch
      refine ⟨fun hm => ?_, fun e he => ?_⟩
      · show (c.after exc ev left).Single
        have hm : c.method = .cancel := hm
        unfold Call.after
        rw [hm]
        cases exc <;> trivial
      · show e ∈ (c.after exc ev left).left ∨ _
        rw [hleft]
        exact hmono (hbatch e he)

theorem callsOk (h : system.Reachable s) : CallsOk s := by
  apply h.invariant
  · intro s hs c hc
    rw [hs.calls] at hc
    cases hc
  · intro s a t h _ hs
    exact h.step hs

/-! ## Steps -/

/-- A running call goes on: its events, its reference and its look-up are those of its place. -/
theorem Moves.setCall (hc : s.calls[i]? = some c) (pc : CallPc) {f : Flow}
    (haccepted : t.accepted = s.accepted) (hinFlight : t.inFlight = s.inFlight)
    (hring : t.ring = s.ring) (husers : t.users = s.users)
    (hcalls : t.calls = (s.setCall i c pc).calls)
    (hprogress : (t.heap.ops p).inProgress = (s.heap.ops p).inProgress)
    (haccept : f.accept = 0) (hdeliver : f.deliver = 0)
    (hleft : pc.leftOf p + f.settle = c.pc.leftOf p)
    (hholds : (pc.holds p).toNat + f.release = (c.pc.holds p).toNat + f.settle)
    (hfinalised : t.finalisations p = s.finalisations p + f.settle)
    (hreleased : t.released.count p = s.released.count p + f.release)
    (hrefs : (t.heap.ops p).refcnt + f.release = (s.heap.ops p).refcnt)
    (hinvoked : t.invocations p + (pc.settledOn p).toNat ≤
      s.invocations p + (c.pc.settledOn p).toNat + f.settle) : Moves s t p f := by
  have hdelivering : t.delivering p = (s.setCall i c pc).delivering p := by
    rw [World.delivering, hcalls, World.delivering]
  have hreleasing : t.releasing p = (s.setCall i c pc).releasing p := by
    rw [World.releasing, hcalls, World.releasing]
  have hlookingUp : t.lookingUp p = (s.setCall i c pc).lookingUp p := by
    rw [World.lookingUp, hcalls, World.lookingUp]
  have hdset := delivering_set hc pc p
  have hrset := releasing_set hc pc p
  have hlset := lookingUp_set hc pc p
  refine ⟨?_, ?_, ?_, ?_, hfinalised, ?_, hreleased, ?_, ?_⟩
  · rw [haccepted, haccept]
    rfl
  · rw [hprogress, haccept]
    rfl
  · rw [World.undelivered, hinFlight, hring, haccept, hdeliver, World.undelivered]
  · rw [hdelivering, hdeliver]
    omega
  · rw [hreleasing]
    omega
  · rw [husers, haccept]
    omega
  · rw [hlookingUp]
    omega

theorem settle_ops (h : Heap) (ev : IoEvent) (p : OpPtr) :
    (h.settle ev).ops p = if p = ev.data then (h.ops p).complete ev.res else h.ops p := by
  by_cases hp : p = ev.data
  · rw [if_pos hp, hp, Heap.settle, Heap.modify_ops_self, Heap.xdecrefCtx_ops]
  · rw [if_neg hp, Heap.settle, Heap.modify_ops_ne _ _ hp, Heap.xdecrefCtx_ops]

theorem modify_ops (h : Heap) (q p : OpPtr) (f : AIOOperation → AIOOperation) :
    (h.modify q f).ops p = if p = q then f (h.ops p) else h.ops p := by
  by_cases hp : p = q
  · rw [if_pos hp, hp, Heap.modify_ops_self]
  · rw [if_neg hp, Heap.modify_ops_ne _ _ hp]

theorem step_moves (hcalls : CallsOk s) (h : Accounted s p) {a : Action} (hs : s.step a = some t) :
    ∃ f, Moves s t p f := by
  cases a with
  | submit k args answer => exact ⟨_, Moves.submit s p k args answer hs⟩
  | setCallback q callback =>
    cases hs
    refine ⟨{}, Moves.heap s p ?_ ?_⟩
    · rw [modify_ops]
      split <;> rfl
    · rw [modify_ops]
      split <;> rfl
  | incref q =>
    obtain ⟨-, hs⟩ := Option.ite_none_right_eq_some.mp hs
    cases hs
    refine ⟨{}, rfl, ?_, rfl, rfl, rfl, rfl, rfl, ?_, Nat.le_refl _⟩
    · show ((s.heap.incref q).ops p).inProgress.toNat = _
      rw [Heap.incref, modify_ops]
      split <;> rfl
    · show ((s.heap.incref q).ops p).refcnt + 0 + s.users p =
        (s.heap.ops p).refcnt + 0 + Function.update s.users q (s.users q + 1) p
      rw [Heap.incref, modify_ops]
      by_cases hp : p = q
      · rw [if_pos hp, hp, Function.update_self]
        show (s.heap.ops q).refcnt + 1 + 0 + s.users q = _
        omega
      · rw [if_neg hp, Function.update_of_ne hp]
  | decref q =>
    obtain ⟨hpos, hs⟩ := Option.ite_none_right_eq_some.mp hs
    cases hs
    refine ⟨{}, rfl, ?_, rfl, rfl, rfl, rfl, rfl, ?_, Nat.le_refl _⟩
    · show ((s.heap.decref q).ops p).inProgress.toNat = _
      rw [Heap.decref, modify_ops]
      split <;> rfl
    · show ((s.heap.decref q).ops p).refcnt + 0 + s.users p =
        (s.heap.ops p).refcnt + 0 + Function.update s.users q (s.users q - 1) p
      rw [Heap.decref, modify_ops]
      by_cases hp : p = q
      · -- a reference of Python code is one of those counted
        have hrefs := h.refs
        have hplaces := h.places
        have hfinalised := h.finalised
        rw [hp] at hrefs hplaces hfinalised
        rw [if_pos hp, hp, Function.update_self]
        show (s.heap.ops q).refcnt - 1 + 0 + s.users q = _
        omega
      · rw [if_neg hp, Function.update_of_ne hp]
  | complete k q res =>
    obtain ⟨hmem, hs⟩ := Option.ite_none_right_eq_some.mp hs
    cases hs
    refine ⟨{}, rfl, rfl, ?_, rfl, rfl, rfl, rfl, rfl, Nat.le_refl _⟩
    have herase := countP_erase hmem fun e : CtxId × OpPtr => decide (e.2 = p)
    have happend := countP_append_one s.ring (k, ⟨q, res⟩)
      fun e : CtxId × IoEvent => decide (e.2.data = p)
    simp only [undelivered] at herase happend ⊢
    omega
  | cancel k q answer =>
    simp only [step] at hs
    split at hs
    · cases hs
      exact ⟨{}, .finish ..⟩
    · split at hs
      case h_1 errno =>
        cases hs
        exact ⟨{}, .finish ..⟩
      case h_2 res =>
        obtain ⟨hmem, hs⟩ := Option.ite_none_right_eq_some.mp hs
        cases hs
        refine ⟨_, Moves.take s .cancel [⟨q, res⟩] (s.inFlight.erase (k, q)) s.ring ?_⟩
        have herase := countP_erase hmem fun e : CtxId × OpPtr => decide (e.2 = p)
        have hone := countP_one ⟨q, res⟩ fun ev : IoEvent => decide (ev.data = p)
        simp only [undelivered, CallPc.leftOf, CallPc.left] at herase hone ⊢
        omega
  | processEvents k maxRequests minRequests answer =>
    simp only [step] at hs
    split at hs
    · cases hs
      exact ⟨{}, .finish ..⟩
    · split at hs
      case h_1 exc =>
        cases hs
        exact ⟨{}, .finish ..⟩
      case h_2 errno _ =>
        cases hs
        exact ⟨{}, .finish ..⟩
      case h_3 max n _ =>
        obtain ⟨-, hs⟩ := Option.ite_none_right_eq_some.mp hs
        cases hs
        refine ⟨_, Moves.take s .processEvents _ s.inFlight _ ?_⟩
        have htake := takeEvents_countP k n s.ring fun ev : IoEvent => decide (ev.data = p)
        simp only [undelivered, CallPc.leftOf, CallPc.left] at htake ⊢
        omega
  | settle i =>
    obtain ⟨c, hc, hs⟩ := onCall_eq_some hs
    split at hs
    case h_1 hpc =>
      cases hs
      refine ⟨{}, Moves.setCall hc c.leave rfl rfl rfl rfl rfl rfl rfl rfl ?_ ?_ rfl rfl rfl ?_⟩
      · rw [hpc]
        rfl
      · rw [hpc]
        rfl
      · rw [hpc]
        exact Nat.le_refl _
    case h_2 ev left hpc =>
      cases hs
      refine ⟨{ settle := (decide (ev.data = p)).toNat },
        Moves.setCall hc (.settled ev left) rfl rfl rfl rfl rfl ?_ rfl rfl ?_ ?_ ?_ rfl ?_ ?_⟩
      · show ((s.heap.settle ev).ops p).inProgress = _
        rw [settle_ops]
        split <;> rfl
      · rw [hpc]
        exact (countP_cons ev left _).symm
      · rw [hpc]
        exact (Nat.zero_add _).symm
      · exact countP_append_one s.finalised (c.method, ev) _
      · show ((s.heap.settle ev).ops p).refcnt + 0 = _
        rw [settle_ops]
        split <;> rfl
      · rw [hpc]
        exact Nat.le_refl _
    case h_3 => cases hs
  | callback i =>
    obtain ⟨c, hc, hs⟩ := onCall_eq_some hs
    split at hs
    case h_1 ev left hpc =>
      split at hs
      case h_1 =>
        cases hs
        refine ⟨{}, Moves.setCall hc
          (.called none ev left) rfl rfl rfl rfl rfl rfl rfl rfl ?_ ?_ rfl
          rfl rfl ?_⟩
        · rw [hpc]
          rfl
        · rw [hpc]
          rfl
        · exact Nat.le_add_right _ _
      case h_2 callback _ =>
        cases hs
        refine ⟨{}, Moves.setCall hc
          (.calling callback ev left) rfl rfl rfl rfl rfl rfl rfl rfl ?_ ?_
          rfl rfl rfl ?_⟩
        · rw [hpc]
          rfl
        · rw [hpc]
          rfl
        · rw [hpc]
          exact Nat.le_of_eq (countP_append_one s.invoked (ev.data, callback) _)
    case h_2 => cases hs
  | callbackReturns i exc =>
    obtain ⟨c, hc, hs⟩ := onCall_eq_some hs
    split at hs
    case h_1 callback ev left hpc =>
      cases hs
      refine ⟨{}, Moves.setCall hc (.called exc ev left) rfl rfl rfl rfl rfl rfl rfl rfl ?_ ?_ rfl
        rfl rfl ?_⟩
      · rw [hpc]
        rfl
      · rw [hpc]
        rfl
      · exact Nat.le_add_right _ _
    case h_2 => cases hs
  | release i =>
    obtain ⟨c, hc, hs⟩ := onCall_eq_some hs
    split at hs
    case h_1 exc ev left hpc =>
      cases hs
      have hp : c.pc.left = left ∧ c.pc.settledOn p = false := by
        rw [hpc]
        exact ⟨rfl, rfl⟩
      have hafter : (c.after exc ev left).holds p = false ∧
          (c.after exc ev left).settledOn p = false := by
        unfold Call.after
        split
        · exact ⟨rfl, rfl⟩
        · exact ⟨rfl, rfl⟩
        · exact ⟨rfl, rfl⟩
      refine ⟨{ release := (decide (ev.data = p)).toNat },
        Moves.setCall hc (c.after exc ev left) rfl rfl rfl rfl rfl ?_ rfl rfl ?_ ?_ rfl ?_ ?_ ?_⟩
      · show ((s.heap.decref ev.data).ops p).inProgress = _
        rw [Heap.decref, modify_ops]
        split <;> rfl
      · rw [CallPc.leftOf, (hcalls c (List.mem_of_getElem? hc)).left_after hpc, hpc]
        rfl
      · rw [hafter.1, hpc]
        exact Nat.zero_add _
      · exact countP_append_one s.released ev.data _
      · show ((s.heap.decref ev.data).ops p).refcnt + (decide (ev.data = p)).toNat = _
        rw [Heap.decref, modify_ops]
        by_cases hdata : p = ev.data
        · -- the reference of `submit` is one of those counted
          have hholds : 0 < s.releasing p := countP_pos_of_getElem? hc (by
            rw [hpc]
            exact decide_eq_true hdata.symm)
          have hrefs := h.refs
          have hplaces := h.places
          have hfinalised := h.finalised
          rw [if_pos hdata, decide_eq_true hdata.symm]
          show (s.heap.ops p).refcnt - 1 + 1 = _
          omega
        · rw [if_neg hdata, decide_eq_false (Ne.symm hdata)]
          rfl
      · rw [hafter.2, hp.2]
        exact Nat.le_refl _
    case h_2 => cases hs

/-! ## What a step does to the Operations -/

def Quiet (h h' : Heap) : Prop :=
  ∀ p, ∃ callback refcnt, h'.ops p = { h.ops p with callback, refcnt }

theorem quiet_modify (h : Heap) (q : OpPtr) {f : AIOOperation → AIOOperation}
    (hf : ∀ op, ∃ callback refcnt, f op = { op with callback, refcnt }) :
    Quiet h (h.modify q f) := by
  intro p
  rw [modify_ops]
  split_ifs
  · exact hf (h.ops p)
  · exact ⟨_, _, rfl⟩

/-- A batch is submitted, an event is finalised, or neither. -/
inductive Touches (s t : World) : Prop
  | submit (k : CtxId) (args : List Arg) (answer : Except Int32 ℕ)
      (hheap : t.heap = (LinuxAio.submit s.heap k (s.ctxs k) args answer).heap)
      (hfinalised : t.finalised = s.finalised)
  | settle (i : ℕ) (c : Call) (ev : IoEvent) (left : List IoEvent) (hc : s.calls[i]? = some c)
      (hpc : c.pc = .next (ev :: left)) (hheap : t.heap = s.heap.settle ev)
      (hfinalised : t.finalised = s.finalised ++ [(c.method, ev)])
  | quiet (hheap : Quiet s.heap t.heap) (hfinalised : t.finalised = s.finalised)

theorem Touches.same (hheap : t.heap = s.heap) (hfinalised : t.finalised = s.finalised) :
    Touches s t :=
  .quiet (hheap ▸ fun _ => ⟨_, _, rfl⟩) hfinalised

theorem step_touches {a : Action} (hs : s.step a = some t) : Touches s t := by
  have hrefs : ∀ (q : OpPtr) (n : AIOOperation → ℕ),
      Quiet s.heap (s.heap.modify q fun op => { op with refcnt := n op }) :=
    fun q n => quiet_modify s.heap q fun op => ⟨op.callback, n op, rfl⟩
  cases a with
  | submit k args answer =>
    cases hs
    exact .submit k args answer rfl rfl
  | setCallback q callback =>
    cases hs
    exact .quiet (quiet_modify s.heap q fun op => ⟨some callback, op.refcnt, rfl⟩) rfl
  | incref q =>
    obtain ⟨-, hs⟩ := Option.ite_none_right_eq_some.mp hs
    cases hs
    exact .quiet (hrefs q fun op => op.refcnt + 1) rfl
  | decref q =>
    obtain ⟨-, hs⟩ := Option.ite_none_right_eq_some.mp hs
    cases hs
    exact .quiet (hrefs q fun op => op.refcnt - 1) rfl
  | complete k q res =>
    obtain ⟨-, hs⟩ := Option.ite_none_right_eq_some.mp hs
    cases hs
    exact .same rfl rfl
  | cancel k q answer =>
    simp only [World.step] at hs
    split at hs
    · cases hs
      exact .same rfl rfl
    · split at hs
      · cases hs
        exact .same rfl rfl
      · obtain ⟨-, hs⟩ := Option.ite_none_right_eq_some.mp hs
        cases hs
        exact .same rfl rfl
  | processEvents k maxRequests minRequests answer =>
    simp only [World.step] at hs
    split at hs
    · cases hs
      exact .same rfl rfl
    · split at hs
      · cases hs
        exact .same rfl rfl
      · cases hs
        exact .same rfl rfl
      · obtain ⟨-, hs⟩ := Option.ite_none_right_eq_some.mp hs
        cases hs
        exact .same rfl rfl
  | settle i =>
    obtain ⟨c, hc, hs⟩ := onCall_eq_some hs
    split at hs
    case h_1 =>
      cases hs
      exact .same rfl rfl
    case h_2 ev left hpc =>
      cases hs
      exact .settle i c ev left hc hpc rfl rfl
    case h_3 => cases hs
  | callback i =>
    obtain ⟨c, -, hs⟩ := onCall_eq_some hs
    split at hs
    case h_1 =>
      split at hs
      all_goals
        cases hs
        exact .same rfl rfl
    case h_2 => cases hs
  | callbackReturns i exc =>
    obtain ⟨c, -, hs⟩ := onCall_eq_some hs
    split at hs
    case h_1 =>
      cases hs
      exact .same rfl rfl
    case h_2 => cases hs
  | release i =>
    obtain ⟨c, -, hs⟩ := onCall_eq_some hs
    split at hs
    case h_1 exc ev left hpc =>
      cases hs
      exact .quiet (hrefs ev.data fun op => op.refcnt - 1) rfl
    case h_2 => cases hs

end World

end Caio.LinuxAio
