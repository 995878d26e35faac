import Caio.LinuxAio.Flow

namespace Caio.LinuxAio

/-- An Operation shows that it is finalised with `res`. -/
def AIOOperation.Shows (op : AIOOperation) (res : Int64) : Prop :=
  op.done = true ∧ op.context = none ∧
    if 0 ≤ res then op.iocb.aioNbytes = res.toUInt64 else op.error = (-res).toInt32

theorem complete_shows (op : AIOOperation) (res : Int64) : (op.complete res).Shows res := by
  refine ⟨rfl, rfl, ?_⟩
  by_cases hres : 0 ≤ res
  · rw [if_pos hres]
    show (if 0 ≤ res then { op.iocb with aioNbytes := res.toUInt64 } else op.iocb).aioNbytes = _
    rw [if_pos hres]
  · rw [if_neg hres]
    exact if_neg hres

theorem Call.after_cancel (c : Call) (hm : c.method = .cancel) (exc : Option PyErr) (ev : IoEvent)
    (left : List IoEvent) : ∃ value, c.after exc ev left = .returned value := by
  unfold Call.after
  rw [hm]
  cases exc with
  | none => exact ⟨_, rfl⟩
  | some exc => exact ⟨_, rfl⟩

namespace World

variable {s t : World} {i : ℕ} {c d : Call} {p : OpPtr} {ev : IoEvent} {left : List IoEvent}

theorem accounted (h : system.Reachable s) (p : OpPtr) : Accounted s p := by
  apply h.invariant_with (J := CallsOk) (fun s hs => callsOk hs)
  · intro s hs
    exact hs.accounted p
  · intro s a t hcalls hp _ hs
    obtain ⟨f, hf⟩ := step_moves hcalls hp hs
    exact hf.accounted hp

def Shown (s : World) : Prop :=
  ∀ method ev, (method, ev) ∈ s.finalised → (s.heap.ops ev.data).Shows ev.res

theorem finalisations_pos {method : Method} (hmem : (method, ev) ∈ s.finalised) :
    0 < s.finalisations ev.data :=
  List.countP_pos_iff.mpr ⟨_, hmem, decide_eq_true rfl⟩

theorem Shown.frame (h : Shown s) (hfinalised : t.finalised = s.finalised)
    (hops : ∀ p res, 0 < s.finalisations p → (s.heap.ops p).Shows res → (t.heap.ops p).Shows res) :
    Shown t := by
  intro method ev hmem
  rw [hfinalised] at hmem
  exact hops ev.data ev.res (finalisations_pos hmem) (h method ev hmem)

theorem finalisations_eq_zero (h : Accounted s ev.data) (hc : s.calls[i]? = some c)
    (hleft : ev ∈ c.pc.left) : s.finalisations ev.data = 0 := by
  have hone : 0 < c.pc.leftOf ev.data :=
    List.countP_pos_iff.mpr ⟨ev, hleft, decide_eq_true rfl⟩
  have hsum : c.pc.leftOf ev.data ≤ s.delivering ev.data :=
    Counting.le_sum_map hc (·.pc.leftOf ev.data)
  have hplaces := h.places
  have haccepted := h.accepted_le
  omega

theorem Shown.step (hacc : ∀ p, Accounted s p) (h : Shown s) {a : Action}
    (hs : s.step a = some t) : Shown t := by
  cases step_touches hs with
  | submit k args answer hheap hfinalised =>
    refine h.frame hfinalised fun p res hpos hshows => ?_
    -- a finalised Operation is in progress for ever, so no call claims it
    have hclaimed : (s.heap.ops p).inProgress = true := by
      have hcount := (hacc p).claimed
      have hplaces := (hacc p).places
      cases hp : (s.heap.ops p).inProgress with
      | true => rfl
      | false =>
        rw [hp, Bool.toNat_false] at hcount
        omega
    rcases submit_ops s.heap k (s.ctxs k) args answer p with
      ⟨-, hfree, -⟩ | ⟨-, hfree, -⟩ | ⟨-, hp⟩
    · rw [hclaimed] at hfree
      cases hfree
    · rw [hclaimed] at hfree
      cases hfree
    · rw [hheap, hp]
      exact hshows
  | settle i c ev left hc hpc hheap hfinalised =>
    have hzero : s.finalisations ev.data = 0 := by
      apply finalisations_eq_zero (hacc ev.data) hc
      rw [hpc]
      exact List.mem_cons_self
    intro method e hmem
    rw [hheap, settle_ops]
    rw [hfinalised] at hmem
    rcases List.mem_append.mp hmem with hold | hnew
    · have hne : e.data ≠ ev.data := by
        intro heq
        have hpos := finalisations_pos hold
        rw [heq, hzero] at hpos
        exact Nat.lt_irrefl 0 hpos
      rw [if_neg hne]
      exact h method e hold
    · obtain ⟨-, rfl⟩ := Prod.mk.inj (List.mem_singleton.mp hnew)
      rw [if_pos rfl]
      exact complete_shows ..
  | quiet hheap hfinalised =>
    refine h.frame hfinalised fun p res _ hshows => ?_
    obtain ⟨callback, refcnt, hop⟩ := hheap p
    rw [hop]
    exact hshows

theorem shown (h : system.Reachable s) : Shown s := by
  apply h.invariant_with (J := fun s => ∀ p, Accounted s p) (fun s hs => accounted hs)
  · intro s hs method ev hmem
    rw [hs.finalised] at hmem
    cases hmem
  · intro s a t hacc hshown _ hs
    exact hshown.step hacc hs

/-- A step of call `i` itself, where the callback for `ev` ends in `raises ev`. -/
def Action.Own (i : ℕ) (raises : IoEvent → Option PyErr) : Action → Prop
  | .settle j | .callback j | .release j => j = i
  | .callbackReturns j exc => j = i ∧ ∃ ev, exc = raises ev
  | _ => False

/-- The steps of call `i` are enough for it to return. -/
def Finishes (s : World) (i : ℕ) (raises : IoEvent → Option PyErr) (taken : List IoEvent) : Prop :=
  ∃ as t d value, system.exec s as = some t ∧ (∀ a ∈ as, a.Own i raises) ∧
    t.calls[i]? = some d ∧ d.taken = taken ∧ d.pc = .returned value

variable {raises : IoEvent → Option PyErr} {taken : List IoEvent}

theorem Finishes.step {a : Action} (hs : s.step a = some t) (ha : a.Own i raises)
    (h : t.Finishes i raises taken) : s.Finishes i raises taken := by
  obtain ⟨as, u, d, value, hexec, hown, hd, htaken, hpc⟩ := h
  refine ⟨a :: as, u, d, value, (TransitionSystem.exec_cons hs).trans hexec, ?_, hd, htaken, hpc⟩
  intro b hb
  rcases List.mem_cons.mp hb with rfl | hb
  · exact ha
  · exact hown b hb

theorem onCall_eq {f : Call → Option World} (hc : s.calls[i]? = some c) : s.onCall i f = f c := by
  rw [onCall, hc]
  rfl

theorem finishes_of_returned {value : Except PyErr Int} (hc : s.calls[i]? = some c)
    (htaken : c.taken = taken) (hpc : c.pc = .returned value) : s.Finishes i raises taken :=
  ⟨[], s, c, value, rfl, nofun, hc, htaken, hpc⟩

theorem setCall_getElem? (hc : s.calls[i]? = some c) (pc : CallPc) :
    (s.setCall i c pc).calls[i]? = some { c with pc } := Table.getElem?_set_self hc _

/-- From its next event on the call can go on. -/
def GoesOn (i : ℕ) (raises : IoEvent → Option PyErr) (taken left : List IoEvent) : Prop :=
  ∀ (s : World) (c : Call), s.calls[i]? = some c → c.taken = taken → c.pc = .next left →
    s.Finishes i raises taken

theorem GoesOn.called (h : GoesOn i raises taken left) {exc : Option PyErr}
    (hc : s.calls[i]? = some c) (htaken : c.taken = taken) (hpc : c.pc = .called exc ev left) :
    s.Finishes i raises taken := by
  obtain ⟨t, hs, ht⟩ : ∃ t, s.step (.release i) = some t ∧
      t.calls[i]? = some { c with pc := c.after exc ev left } := by
    simp only [step, onCall_eq hc, hpc]
    exact ⟨_, rfl, setCall_getElem? hc _⟩
  apply Finishes.step hs rfl
  cases hm : c.method with
  | processEvents =>
    apply h t _ ht htaken
    unfold Call.after
    rw [hm]
  | cancel =>
    obtain ⟨value, hvalue⟩ := c.after_cancel hm exc ev left
    exact finishes_of_returned ht htaken hvalue

theorem GoesOn.calling (h : GoesOn i raises taken left) {callback : Callback}
    (hc : s.calls[i]? = some c) (htaken : c.taken = taken)
    (hpc : c.pc = .calling callback ev left) : s.Finishes i raises taken := by
  obtain ⟨t, hs, ht⟩ : ∃ t, s.step (.callbackReturns i (raises ev)) = some t ∧
      t.calls[i]? = some { c with pc := .called (raises ev) ev left } := by
    simp only [step, onCall_eq hc, hpc]
    exact ⟨_, rfl, setCall_getElem? hc _⟩
  exact Finishes.step hs ⟨rfl, ev, rfl⟩ (h.called ht htaken rfl)

theorem GoesOn.settled (h : GoesOn i raises taken left) (hc : s.calls[i]? = some c)
    (htaken : c.taken = taken) (hpc : c.pc = .settled ev left) : s.Finishes i raises taken := by
  cases hcallback : (s.heap.ops ev.data).callback with
  | none =>
    obtain ⟨t, hs, ht⟩ : ∃ t, s.step (.callback i) = some t ∧
        t.calls[i]? = some { c with pc := .called none ev left } := by
      simp only [step, onCall_eq hc, hpc, hcallback]
      exact ⟨_, rfl, setCall_getElem? hc _⟩
    exact Finishes.step hs rfl (h.called ht htaken rfl)
  | some callback =>
    obtain ⟨t, hs, ht⟩ : ∃ t, s.step (.callback i) = some t ∧
        t.calls[i]? = some { c with pc := .calling callback ev left } := by
      simp only [step, onCall_eq hc, hpc, hcallback]
      exact ⟨_, rfl, setCall_getElem? hc _⟩
    exact Finishes.step hs rfl (h.calling ht htaken rfl)

/-- By induction on the events that are left. -/
theorem goesOn (i : ℕ) (raises : IoEvent → Option PyErr) (taken left : List IoEvent) :
    GoesOn i raises taken left := by
  induction left with
  | nil =>
    intro s c hc htaken hpc
    obtain ⟨t, hs, ht⟩ : ∃ t, s.step (.settle i) = some t ∧
        t.calls[i]? = some { c with pc := c.leave } := by
      simp only [step, onCall_eq hc, hpc]
      exact ⟨_, rfl, setCall_getElem? hc _⟩
    exact Finishes.step hs rfl (finishes_of_returned ht htaken rfl)
  | cons ev left ih =>
    intro s c hc htaken hpc
    obtain ⟨t, hs, ht⟩ : ∃ t, s.step (.settle i) = some t ∧
        t.calls[i]? = some { c with pc := .settled ev left } := by
      simp only [step, onCall_eq hc, hpc]
      exact ⟨_, rfl, setCall_getElem? hc _⟩
    exact Finishes.step hs rfl (ih.settled ht htaken rfl)

theorem finishes (hc : s.calls[i]? = some c) (raises : IoEvent → Option PyErr) :
    s.Finishes i raises c.taken := by
  cases hpc : c.pc with
  | next left => exact goesOn i raises c.taken left s c hc rfl hpc
  | settled ev left => exact (goesOn i raises c.taken left).settled hc rfl hpc
  | calling callback ev left => exact (goesOn i raises c.taken left).calling hc rfl hpc
  | called exc ev left => exact (goesOn i raises c.taken left).called hc rfl hpc
  | returned value => exact finishes_of_returned hc rfl hpc

theorem batch_finalised (h : system.Reachable s) (hc : s.calls[i]? = some c)
    {value : Except PyErr Int} (hpc : c.pc = .returned value) (hev : ev ∈ c.taken) :
    (c.method, ev) ∈ s.finalised := by
  have hbatch := (callsOk h c (List.mem_of_getElem? hc)).batch ev hev
  rw [hpc] at hbatch
  exact hbatch.resolve_left List.not_mem_nil

/-- A call of `cancel` that fails leaves every Operation and the kernel as they are. -/
theorem cancel_error {k : CtxId} {errno : Int32}
    (hs : s.step (.cancel k p (.error errno)) = some t) :
    t.heap = s.heap ∧ t.inFlight = s.inFlight ∧ t.ring = s.ring ∧ t.finalised = s.finalised := by
  simp only [step] at hs
  split at hs
  all_goals
    cases hs
    exact ⟨rfl, rfl, rfl, rfl⟩

/-- In every run: an accepted Operation is in the kernel, with one call or finalised, and each only
once, whether by `process_events` or by `cancel`; what finalising stores stays; its callback is
invoked at most once, and the reference of `submit` goes once, by the call that finalised it. Every
call can be finished whatever its callbacks do, and then it has finalised all it took; a failed
`cancel` changes nothing. -/
theorem finalised_exactly_once {s : World} (h : system.Reachable s) :
    (∀ p, s.accepted.count p ≤ 1 ∧
      s.accepted.count p = s.undelivered p + s.delivering p + s.finalisations p ∧
      s.finalisations p = s.releasing p + s.released.count p ∧
      s.invocations p ≤ s.finalisations p ∧
      (s.heap.ops p).refcnt = s.users p + (s.accepted.count p - s.released.count p)) ∧
    (∀ method ev, (method, ev) ∈ s.finalised → (s.heap.ops ev.data).Shows ev.res) ∧
    (∀ (i : ℕ) (c : Call), s.calls[i]? = some c →
      (∀ value ev, c.pc = .returned value → ev ∈ c.taken → (c.method, ev) ∈ s.finalised) ∧
      ∀ raises, ∃ as t d value, system.exec s as = some t ∧ (∀ a ∈ as, a.Own i raises) ∧
        t.calls[i]? = some d ∧ d.pc = .returned value ∧
        ∀ ev ∈ c.taken, (d.method, ev) ∈ t.finalised) ∧
    ∀ k p errno t, s.step (.cancel k p (.error errno)) = some t →
      t.heap = s.heap ∧ t.inFlight = s.inFlight ∧ t.ring = s.ring ∧ t.finalised = s.finalised := by
  refine ⟨fun p => ?_, shown h, fun i c hc => ⟨fun value ev => batch_finalised h hc, ?_⟩,
    fun k p errno t => cancel_error⟩
  · have hacc := accounted h p
    have hle := hacc.accepted_le
    have hplaces := hacc.places
    have hfinalised := hacc.finalised
    have hrefs := hacc.refs
    have hinvoked := hacc.invoked
    refine ⟨hle, hplaces, hfinalised, ?_, ?_⟩
    · omega
    · omega
  · intro raises
    obtain ⟨as, t, d, value, hexec, hown, hd, htaken, hpc⟩ := finishes hc raises
    refine ⟨as, t, d, value, hexec, hown, hd, hpc, fun ev hev => ?_⟩
    exact batch_finalised (.exec h hexec) hd hpc (htaken ▸ hev)

/-- New Operations, each with one reference, and Contexts that are set up. -/
def new : World where
  heap := ⟨fun p => { iocb := { aioData := p, aioLioOpcode := .fsync } }, fun _ => 1⟩
  ctxs := fun _ => ⟨1, 3⟩
  users := fun _ => 1
  inFlight := []
  ring := []
  calls := []
  accepted := []
  finalised := []
  invoked := []
  released := []

theorem new_init : Init new :=
  ⟨fun _ => rfl, fun _ => rfl, rfl, rfl, rfl, rfl, rfl, rfl, rfl⟩

/-- Of a batch of two the first callback cancels a third Operation and then raises. -/
def raisingRun : List Action :=
  [.setCallback 16 7, .submit 0 [.operation 16, .operation 32, .operation 48] (.ok 3),
    .complete 0 16 0, .complete 0 32 (-5), .processEvents 0 0 0 (.ok 2), .settle 0, .callback 0,
    .cancel 0 48 (.ok (-125)), .settle 1, .callback 1, .release 1,
    .callbackReturns 0 (some (.runtimeError "")), .release 0, .settle 0, .callback 0, .release 0,
    .settle 0]

theorem finalised_exactly_once_raising : ∃ s, system.exec new raisingRun = some s ∧
    s.finalised = [(.processEvents, ⟨16, 0⟩), (.cancel, ⟨48, -125⟩), (.processEvents, ⟨32, -5⟩)] ∧
    s.released = [48, 16, 32] ∧ (s.heap.ops 32).Shows (-5) ∧ (s.heap.ops 32).refcnt = 1 := by
  have hrun : ((system.exec new raisingRun).any fun s => decide (
      s.finalised = [(.processEvents, ⟨16, 0⟩), (.cancel, ⟨48, -125⟩), (.processEvents, ⟨32, -5⟩)] ∧
      s.released = [48, 16, 32] ∧ s.users 32 = 1 ∧ s.accepted = [16, 32, 48])) = true := by
    decide +kernel
  obtain ⟨s, hexec, hs⟩ := (Option.any_eq_true _ _).mp hrun
  obtain ⟨hfinalised, hreleased, husers, haccepted⟩ := of_decide_eq_true hs
  obtain ⟨hops, hshows, -⟩ := finalised_exactly_once (.exec (.init new_init) hexec)
  obtain ⟨-, -, -, -, hrefs⟩ := hops 32
  have hmem : (Method.processEvents, (⟨32, -5⟩ : IoEvent)) ∈ s.finalised := by
    rw [hfinalised]
    decide
  rw [husers, haccepted, hreleased] at hrefs
  exact ⟨s, hexec, hfinalised, hreleased, hshows _ _ hmem, hrefs⟩

end World

end Caio.LinuxAio
