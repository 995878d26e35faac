import Caio.Asyncio.Refused

namespace Caio.Asyncio

/-- What `submit` raises when `self.context.cancel(op)` has come to this. -/
def afterCancel {α : Type} : Except PyErr α → PyErr
  | .error (.valueError _) | .ok _ => .cancelledError
  | .error e => e

/-- An exception of `self.context.cancel(op)` that nobody sees. -/
def Absorbed (e : PyErr) : Prop := e = .cancelledError ∨ ∃ msg, e = .valueError msg

theorem afterCancel_error_iff {α : Type} (e : PyErr) :
    afterCancel (.error e : Except PyErr α) = .cancelledError ↔ Absorbed e := by
  cases e with
  | valueError msg => exact iff_of_true rfl (.inr ⟨msg, rfl⟩)
  | cancelledError => exact iff_of_true rfl (.inl rfl)
  | _ =>
    refine iff_of_false (fun h => by cases h) fun h => ?_
    obtain h | ⟨msg, h⟩ := h <;> cases h

end Caio.Asyncio

namespace Caio.LinuxAio.World

open Asyncio

variable {s t : World} {i : ℕ} {c d : Call} {ev : IoEvent} {value : Except PyErr Int}

theorem step_call {a : Action} (hs : s.step a = some t) (hc : s.calls[i]? = some c) :
    (t.calls[i]? = some c ∧ ∀ exc, a ≠ .callbackReturns i exc) ∨
      ∃ pc, Goes i c a pc ∧ t.calls[i]? = some { c with pc } := by
  have hnew : ∀ d, t.calls = s.calls ++ [d] → t.calls[i]? = some c := by
    intro d heq
    rw [heq]
    exact Table.getElem?_append_of_some hc d
  cases step_calls hs with
  | same hother hcalls => exact .inl ⟨by rw [hcalls, hc], hother i⟩
  | complete k p res hcalls => exact .inl ⟨by rw [hcalls, hc], by simp⟩
  | returned method value hother hcalls => exact .inl ⟨hnew _ hcalls, hother i⟩
  | cancel k p res hcalls => exact .inl ⟨hnew _ hcalls, by simp⟩
  | processEvents k max min answer n hcalls => exact .inl ⟨hnew _ hcalls, by simp⟩
  | goes j e pc he hgoes hcalls =>
    by_cases hji : j = i
    · subst hji
      cases he.symm.trans hc
      exact .inr ⟨pc, hgoes, by rw [hcalls]; exact Table.getElem?_set_self he _⟩
    · refine .inl ⟨by rw [hcalls]; exact (List.getElem?_set_ne hji).trans hc, ?_⟩
      rintro exc rfl
      cases hgoes
      exact hji rfl

/-- The value of a `cancel` that has taken the event `ev` from the kernel, when `as` are the steps
up to its end: that of the event, or the exception of the callback. -/
def Comes (i : ℕ) (as : List Action) (ev : IoEvent) (value : Except PyErr Int) : Prop :=
  (value = .ok ev.res.toInt ∧ ∀ e, .callbackReturns i (some e) ∉ as) ∨
    ∃ e, value = .error e ∧ ∀ e', .callbackReturns i (some e') ∈ as ↔ e' = e

/-- What is to come of a call of `cancel`, by where it is. -/
def ComesFrom (i : ℕ) (as : List Action) (value : Except PyErr Int) : CallPc → Prop
  | .next [] => True
  | .next (ev :: _) | .settled ev _ | .calling _ ev _ => Comes i as ev value
  | .called none ev _ => value = .ok ev.res.toInt ∧ ∀ exc, .callbackReturns i exc ∉ as
  | .called (some e) _ _ => value = .error e ∧ ∀ exc, .callbackReturns i exc ∉ as
  | .returned v => value = v ∧ ∀ exc, .callbackReturns i exc ∉ as

theorem Comes.cons {as : List Action} {a : Action} (h : Comes i as ev value)
    (ha : ∀ exc, a ≠ .callbackReturns i exc) : Comes i (a :: as) ev value := by
  have hmem : ∀ e, .callbackReturns i (some e) ∈ a :: as ↔ .callbackReturns i (some e) ∈ as := by
    intro e
    rw [List.mem_cons, or_iff_right (Ne.symm (ha _))]
  simpa only [Comes, hmem] using h

theorem not_mem_cons {as : List Action} {a : Action} (h : ∀ exc, .callbackReturns i exc ∉ as)
    (ha : ∀ exc, a ≠ .callbackReturns i exc) : ∀ exc, .callbackReturns i exc ∉ a :: as :=
  fun exc hmem => (List.mem_cons.mp hmem).elim (fun heq => ha exc heq.symm) (h exc)

theorem ComesFrom.cons {as : List Action} {a : Action} {pc : CallPc} (h : ComesFrom i as value pc)
    (ha : ∀ exc, a ≠ .callbackReturns i exc) : ComesFrom i (a :: as) value pc := by
  cases pc with
  | next left =>
    cases left with
    | nil => trivial
    | cons ev left => exact Comes.cons h ha
  | settled ev left | calling callback ev left => exact Comes.cons h ha
  | called exc ev left => cases exc <;> exact ⟨h.1, not_mem_cons h.2 ha⟩
  | returned v => exact ⟨h.1, not_mem_cons h.2 ha⟩

/-- What is to come after a step of the call was to come before it. -/
theorem Goes.comesFrom (hm : c.method = .cancel) {as : List Action} {a : Action} {pc : CallPc}
    (h : Goes i c a pc) (hpc : ComesFrom i as value pc) : ComesFrom i (a :: as) value c.pc := by
  cases h with
  | leave heq =>
    rw [heq]
    trivial
  | settle heq =>
    rw [heq]
    exact Comes.cons hpc (by simp)
  | skip heq =>
    rw [heq]
    refine .inl ⟨hpc.1, fun e => not_mem_cons hpc.2 (by simp) (some e)⟩
  | call callback heq =>
    rw [heq]
    exact Comes.cons hpc (by simp)
  | callbackReturns exc heq =>
    rw [heq]
    cases exc with
    | none =>
      refine .inl ⟨hpc.1, fun e hmem => ?_⟩
      obtain heq | hmem := List.mem_cons.mp hmem
      · cases heq
      · exact hpc.2 (some e) hmem
    | some e =>
      refine .inr ⟨e, hpc.1, fun e' => ⟨fun hmem => ?_, fun heq => heq ▸ List.mem_cons_self⟩⟩
      obtain heq | hmem := List.mem_cons.mp hmem
      · cases heq
        rfl
      · exact absurd hmem (hpc.2 (some e'))
  | release heq =>
    rw [heq]
    unfold Call.after at hpc
    rw [hm] at hpc
    rename_i exc ev left
    -- a `cancel` returns after its one event, with the exception of the callback if there was one
    cases exc <;> exact ⟨hpc.1, not_mem_cons hpc.2 (by simp)⟩

theorem comesFrom {as : List Action} (hm : c.method = .cancel) (hc : s.calls[i]? = some c)
    (hexec : system.exec s as = some t) (hd : t.calls[i]? = some d) (hpc : d.pc = .returned value) :
    ComesFrom i as value c.pc := by
  induction as generalizing s c with
  | nil =>
    cases hexec
    cases hc.symm.trans hd
    rw [hpc]
    exact ⟨rfl, fun _ => List.not_mem_nil⟩
  | cons a as ih =>
    obtain ⟨u, hu, ht⟩ := Option.bind_eq_some_iff.mp hexec
    obtain ⟨hsame, hne⟩ | ⟨pc, hgoes, hnext⟩ := step_call hu hc
    · exact (ih hm hsame ht).cons hne
    · exact hgoes.comesFrom hm (ih (c := { c with pc }) hm hnext ht)

/-- A call of `cancel` that starts in `s` and has returned or raised by `t`, when the steps of this
and of other threads in between are `as`. -/
def Cancels (s t : World) (k : CtxId) (p : OpPtr) (answer : Except Int32 Int64)
    (as : List Action) (value : Except PyErr Int) : Prop :=
  system.exec s (.cancel k p answer :: as) = some t ∧
    ∃ c, t.calls[s.calls.length]? = some c ∧ c.pc = .returned value

/-- `io_cancel` succeeds and the callback raises nothing that is seen, or it fails with `EINVAL`. -/
def CancelsQuietly (s : World) (k : CtxId) (answer : Except Int32 Int64) (as : List Action) :
    Prop :=
  (s.ctxs k).ctx ≠ 0 ∧
    match answer with
    | .error errno => errno = einval
    | .ok _ => ∀ e, .callbackReturns s.calls.length (some e) ∈ as → Absorbed e

theorem ioCancelError_absorbed_iff (errno : Int32) :
    Absorbed (ioCancelError errno) ↔ errno = einval := by
  unfold ioCancelError
  split_ifs with hagain hfault hinval hnosys
  · rw [hagain]
    exact iff_of_false (by simp [Absorbed]) (by decide)
  · rw [hfault]
    exact iff_of_false (by simp [Absorbed]) (by decide)
  · exact iff_of_true (.inr ⟨_, rfl⟩) hinval
  · rw [hnosys]
    exact iff_of_false (by simp [Absorbed]) (by decide)
  · exact iff_of_false (by simp [Absorbed]) hinval

theorem cancels_iff {k : CtxId} {p : OpPtr} {answer : Except Int32 Int64} {as : List Action}
    (h : s.Cancels t k p answer as value) :
    afterCancel value = .cancelledError ↔ s.CancelsQuietly k answer as := by
  obtain ⟨hexec, d, hd, hpc⟩ := h
  obtain ⟨u, hu, ht⟩ := Option.bind_eq_some_iff.mp hexec
  have hstart : ∀ {c : Call}, u.calls = s.calls ++ [c] → c.method = .cancel →
      ComesFrom s.calls.length as value c.pc := fun heq hm =>
    comesFrom hm (heq ▸ Table.getElem?_append_one s.calls _) ht hd hpc
  simp only [step, system] at hu
  unfold CancelsQuietly
  split at hu
  case isTrue hctx =>
    -- the Context is closed: `RuntimeError`, which the adapter does not suppress
    cases hu
    obtain ⟨rfl, -⟩ := hstart rfl rfl
    exact iff_of_false (by simp [afterCancel]) fun hq => hq.1 hctx
  case isFalse hctx =>
    split at hu
    case h_1 errno =>
      cases hu
      obtain ⟨rfl, -⟩ := hstart rfl rfl
      rw [afterCancel_error_iff, ioCancelError_absorbed_iff]
      exact ⟨fun herrno => ⟨hctx, herrno⟩, And.right⟩
    case h_2 res =>
      obtain ⟨-, hu⟩ := Option.ite_none_right_eq_some.mp hu
      cases hu
      -- the value is the kernel's, or the callback has raised
      obtain ⟨rfl, hnone⟩ | ⟨e, rfl, honly⟩ := hstart rfl rfl
      · exact iff_of_true rfl ⟨hctx, fun e he => absurd he (hnone e)⟩
      · rw [afterCancel_error_iff]
        constructor
        · intro he
          refine ⟨hctx, fun e' hmem => ?_⟩
          rwa [(honly e').mp hmem]
        · intro hq
          exact hq.2 e ((honly e).mpr rfl)

end Caio.LinuxAio.World

namespace Caio.Uring.Adapter

open Asyncio

variable {c : CtxId} {p : OpPtr} {s t : Adapter}

/-- The SQ ring has a slot for the cancel request. -/
def HasSlot (s : Adapter) (c : CtxId) : Prop :=
  (s.ctx c).sq.tail - (s.ctx c).sq.head < (s.ctx c).sq.size.entries

theorem cancel_iff {call : Syscall} {r : Except PyErr ℕ} (hrun : s.cancel c p call = some (t, r)) :
    afterCancel r = .cancelledError ↔ s.HasSlot c := by
  unfold Adapter.cancel World.cancel cancelStage at hrun
  unfold HasSlot ctx
  split_ifs at hrun with hfull
  · cases hrun
    exact iff_of_false (by simp [afterCancel]) (UInt32.not_lt.mpr hfull)
  · obtain ⟨w, -, heq⟩ := Option.map_eq_some_iff.mp hrun
    cases heq
    exact iff_of_true rfl (UInt32.not_le.mp hfull)

end Caio.Uring.Adapter

namespace Caio

def PythonAio.cancel (_ops : List PythonAio.Arg) : Except PyErr ℕ := .ok 0

def ThreadAio.cancel (_ops : List ThreadAio.Arg) : Except PyErr ℕ := .ok 0

namespace Asyncio

/-- A cancelled `submit` raises `CancelledError`: always on `python_aio` and `thread_aio`; on
`linux_aio` exactly if `io_cancel` fails with `EINVAL`, or succeeds and the callback raises nothing
that is seen; on `linux_uring` exactly if the SQ ring is not full. -/
theorem cancelled_submit_iff (k : CtxId) :
    (∀ ops, afterCancel (PythonAio.cancel ops) = .cancelledError) ∧
    (∀ ops, afterCancel (ThreadAio.cancel ops) = .cancelledError) ∧
    (∀ (s t : LinuxAio.World) (p : LinuxAio.OpPtr) (answer : Except Int32 Int64)
      (as : List LinuxAio.World.Action) (value : Except PyErr Int),
      s.Cancels t k p answer as value →
      (afterCancel value = .cancelledError ↔ s.CancelsQuietly k answer as)) ∧
    ∀ (s t : Uring.Adapter) (p : Uring.OpPtr) (call : Uring.Syscall) (r : Except PyErr ℕ),
      s.cancel k p call = some (t, r) → (afterCancel r = .cancelledError ↔ s.HasSlot k) :=
  ⟨fun _ => rfl, fun _ => rfl, fun _ _ _ _ _ _ h => LinuxAio.World.cancels_iff h,
    fun _ _ _ _ _ h => Uring.Adapter.cancel_iff h⟩

/-- An Operation that has never reached the kernel, for which `io_cancel` fails with `EINVAL`. -/
theorem cancelled_submit_queued :
    ∃ t value, LinuxAio.World.new.Cancels t 0 16 (.error LinuxAio.einval) [] value ∧
      afterCancel value = .cancelledError := by
  have hrun : LinuxAio.World.new.Cancels _ 0 16 (.error LinuxAio.einval) [] _ :=
    ⟨rfl, _, rfl, rfl⟩
  exact ⟨_, _, hrun, ((cancelled_submit_iff 0).2.2.1 _ _ _ _ _ _ hrun).mpr ⟨by decide, rfl⟩⟩

/-- For a request in flight `io_cancel` fails with `EINPROGRESS`, and a full ring has no room for a
cancel request: the caller gets a `SystemError` and an `OverflowError`. -/
theorem cancelled_submit_raises :
    (∃ s t value, LinuxAio.World.system.Reachable s ∧ (0, 16) ∈ s.inFlight ∧
      s.Cancels t 0 16 (.error 115) [] value ∧ afterCancel value = .systemError 115) ∧
    ∃ t r, Uring.World.system.Reachable (eagerAfter fullRing).world ∧
      (eagerAfter fullRing).cancel 0 16 ⟨[], .ok 0⟩ = some (t, r) ∧
      afterCancel r = .overflowError "io_uring SQ ring full" := by
  constructor
  · have hsubmit : LinuxAio.World.system.exec LinuxAio.World.new
        [.submit 0 [.operation 16] (.ok 1)] = some _ := rfl
    refine ⟨_, _, _, .exec (.init LinuxAio.World.new_init) hsubmit, ?_, ⟨rfl, _, rfl, rfl⟩, rfl⟩
    decide +kernel
  · have hrun : ((eagerAfter fullRing).cancel 0 16 ⟨[], .ok 0⟩).any fun r =>
        decide (afterCancel r.2 = .overflowError "io_uring SQ ring full") := by decide +kernel
    obtain ⟨⟨t, r⟩, ht, hr⟩ := (Option.any_eq_true _ _).mp hrun
    have hready : (eagerAfter fullRing).Ready 0 48 := eagerAfter_ready (by decide +kernel)
    exact ⟨t, r, hready.reachable, ht, of_decide_eq_true hr⟩

end Asyncio

end Caio
