import Caio.Lib.Width
import Caio.LinuxAio.Finalise
import Caio.Uring.Delivery

namespace Caio

namespace Uring

def Delivery.argument (d : Delivery) : ℤ := d.res.toInt64.toInt

theorem Delivery.argument_eq (d : Delivery) : d.argument = d.res.toInt := Int32.toInt_toInt64 ..

/-- A turn of a callback loop is that of a CQE which the kernel has posted. -/
theorem Drain.posted_of_delivered {s : Drain} (h : Drain.system.Reachable s) {d : Delivery}
    (hd : d ∈ s.delivered) : (⟨d.op, d.res⟩ : Cqe) ∈ s.posted := by
  have hinv := inv_of_reachable h
  -- a turn is one of a completion that was taken, and what was taken had been posted
  have hturn : d.completion ∈ completions (s.taken.map Prod.fst) :=
    hinv.account.delivered.subset (List.mem_append_left _ (List.mem_map_of_mem hd))
  obtain ⟨e, he, hcompletion⟩ := List.mem_filterMap.mp hturn
  obtain ⟨-, heq⟩ := Option.ite_none_left_eq_some.mp hcompletion
  obtain ⟨hop, hres⟩ := Prod.mk.inj (Option.some.inj heq)
  rw [← hinv.log.consumed]
  apply List.mem_append_left
  rw [← hop, ← hres]
  exact he

end Uring

namespace LinuxAio

/-- `"K"` in `PyObject_CallFunction(callback, "K", ev->res)`: the `__s64` is read as an
`unsigned long long`. -/
def IoEvent.argument (ev : IoEvent) : ℤ := ev.res.toUInt64.toNat

theorem IoEvent.argument_eq_iff (ev : IoEvent) : ev.argument = ev.res.toInt ↔ 0 ≤ ev.res.toInt :=
  Width.toUInt64_toNat_eq_iff ev.res

/-- The events that a call still has, the current one included. -/
def CallPc.events : CallPc → List IoEvent
  | .next left => left
  | .settled ev left => ev :: left
  | .calling _ ev left => ev :: left
  | .called _ ev left => ev :: left
  | .returned _ => []

namespace World

variable {s t : World} {P : Method × IoEvent → Prop}

/-- The completion that an action of the kernel makes, and the method that delivers it. -/
def Action.gives : Action → Option (Method × IoEvent)
  | .complete _ p res => some (.processEvents, ⟨p, res⟩)
  | .cancel _ p (.ok res) => some (.cancel, ⟨p, res⟩)
  | _ => none

/-- A call of `method` is in the callback of `ev.data`. -/
def Calling (s : World) (method : Method) (ev : IoEvent) : Prop :=
  ∃ c ∈ s.calls, c.method = method ∧ ∃ callback left, c.pc = .calling callback ev left

/-- Every event that waits, and every one that a call has, meets `P`. -/
structure Given (P : Method × IoEvent → Prop) (s : World) : Prop where
  ring : ∀ e ∈ s.ring, P (.processEvents, e.2)
  calls : ∀ c ∈ s.calls, ∀ ev ∈ c.pc.events, P (c.method, ev)

theorem Given.frame (h : Given P s) (hring : t.ring = s.ring) (hcalls : t.calls = s.calls) :
    Given P t := by
  refine ⟨?_, ?_⟩
  · rw [hring]
    exact h.ring
  · rw [hcalls]
    exact h.calls

theorem Given.append (h : Given P s) {c : Call} (hc : ∀ ev ∈ c.pc.events, P (c.method, ev))
    (hring : ∀ e ∈ t.ring, e ∈ s.ring) (hcalls : t.calls = s.calls ++ [c]) : Given P t := by
  refine ⟨fun e he => h.ring e (hring e he), fun d hd => ?_⟩
  rw [hcalls] at hd
  rcases List.mem_append.mp hd with hd | hd
  · exact h.calls d hd
  · rw [List.mem_singleton.mp hd]
    exact hc

theorem Given.setCall (h : Given P s) {i : ℕ} {c : Call} (hc : s.calls[i]? = some c) {pc : CallPc}
    (hpc : pc.events ⊆ c.pc.events) (hring : t.ring = s.ring)
    (hcalls : t.calls = s.calls.set i { c with pc }) : Given P t := by
  refine ⟨fun e he => h.ring e (hring ▸ he), fun d hd => ?_⟩
  rw [hcalls] at hd
  rcases List.mem_or_eq_of_mem_set hd with hd | rfl
  · exact h.calls d hd
  · exact fun ev hev => h.calls c (List.mem_of_getElem? hc) ev (hpc hev)

theorem mem_of_takeEvents {k : CtxId} {n : ℕ} {ring : List (CtxId × IoEvent)} :
    (∀ ev ∈ (takeEvents k n ring).1, ∃ e ∈ ring, e.2 = ev) ∧
    ∀ e ∈ (takeEvents k n ring).2, e ∈ ring := by
  induction ring generalizing n with
  | nil => cases n <;> exact ⟨fun _ h => absurd h List.not_mem_nil, fun _ h => h⟩
  | cons e ring ih =>
    cases n with
    | zero => exact ⟨fun _ h => absurd h List.not_mem_nil, fun _ h => h⟩
    | succ n =>
      rw [takeEvents]
      split_ifs
      · refine ⟨fun ev hev => ?_, fun d hd => List.mem_cons_of_mem _ (ih.2 d hd)⟩
        rcases List.mem_cons.mp hev with rfl | hev
        · exact ⟨e, List.mem_cons_self, rfl⟩
        · obtain ⟨d, hd, heq⟩ := ih.1 ev hev
          exact ⟨d, List.mem_cons_of_mem _ hd, heq⟩
      · refine ⟨fun ev hev => ?_, fun d hd => ?_⟩
        · obtain ⟨d, hd, heq⟩ := ih.1 ev hev
          exact ⟨d, List.mem_cons_of_mem _ hd, heq⟩
        · rcases List.mem_cons.mp hd with rfl | hd
          · exact List.mem_cons_self
          · exact List.mem_cons_of_mem _ (ih.2 d hd)

theorem after_events (c : Call) (exc : Option PyErr) (ev : IoEvent) (left : List IoEvent) :
    (c.after exc ev left).events ⊆ left := by
  unfold Call.after
  split <;> simp [CallPc.events]

theorem Goes.events {i : ℕ} {c : Call} {a : Action} {pc : CallPc} (h : Goes i c a pc) :
    pc.events ⊆ c.pc.events := by
  cases h with
  | leave hpc => exact List.nil_subset _
  | settle hpc | skip hpc | call callback hpc | callbackReturns exc hpc =>
    rw [hpc]
    exact List.Subset.refl _
  | release hpc =>
    rw [hpc]
    exact List.Subset.trans (after_events ..) (List.subset_cons_self ..)

theorem Given.step (h : Given P s) {a : Action} (ha : ∀ x, a.gives = some x → P x)
    (hs : s.step a = some t) : Given P t := by
  cases step_calls hs with
  | same _ hcalls hring => exact h.frame hring hcalls
  | complete k p res hcalls hring =>
    refine ⟨fun e he => ?_, hcalls ▸ h.calls⟩
    rw [hring] at he
    rcases List.mem_append.mp he with he | he
    · exact h.ring e he
    · rw [List.mem_singleton.mp he]
      exact ha _ rfl
  | returned method value _ hcalls hring =>
    exact h.append (fun _ hev => absurd hev List.not_mem_nil) (fun _ he => hring ▸ he) hcalls
  | cancel k p res hcalls hring =>
    refine h.append (fun ev hev => ?_) (fun _ he => hring ▸ he) hcalls
    rw [List.mem_singleton.mp hev]
    exact ha _ rfl
  | processEvents k max min answer n hcalls hring =>
    refine h.append (fun ev hev => ?_) (fun e he => mem_of_takeEvents.2 e (hring ▸ he)) hcalls
    obtain ⟨e, he, rfl⟩ := mem_of_takeEvents.1 ev hev
    exact h.ring e he
  | goes i c pc hc hgoes hcalls hring => exact h.setCall hc hgoes.events hring hcalls

/-- A callback is called for a completion that the kernel has made, by the method that took it. -/
theorem gives_of_calling (hinit : Init s) {as : List Action} (hrun : system.exec s as = some t)
    {method : Method} {ev : IoEvent} (h : t.Calling method ev) :
    ∃ a ∈ as, a.gives = some (method, ev) := by
  have hgiven : Given (fun x => ∃ a ∈ as, a.gives = some x) t := by
    -- the run's own completions are the property that all events have
    apply TransitionSystem.exec_invariant (I := Given _) ?_ ?_ hrun
    · intro u a v ha hu hs
      exact hu.step (fun x hx => ⟨a, ha, hx⟩) hs
    · refine ⟨fun e he => ?_, fun c hc => ?_⟩
      · rw [hinit.ring] at he
        cases he
      · rw [hinit.calls] at hc
        cases hc
  obtain ⟨c, hc, rfl, callback, left, hpc⟩ := h
  apply hgiven.calls c hc
  rw [hpc]
  exact List.mem_cons_self

end World

end LinuxAio

/-- linux_uring calls back with the result of the CQE, in every run. linux_aio does so in
`process_events` and in `cancel` exactly for the results that are not negative. -/
theorem callback_number_iff {d : Uring.Drain} (hd : Uring.Drain.system.Reachable d)
    {s t : LinuxAio.World} (hs : LinuxAio.World.Init s) {as : List LinuxAio.World.Action}
    (hrun : LinuxAio.World.system.exec s as = some t) :
    (∀ x ∈ d.delivered, (⟨x.op, x.res⟩ : Uring.Cqe) ∈ d.posted ∧ x.argument = x.res.toInt) ∧
    ∀ method ev, t.Calling method ev → (∃ a ∈ as, a.gives = some (method, ev)) ∧
      (ev.argument = ev.res.toInt ↔ 0 ≤ ev.res.toInt) := by
  refine ⟨fun x hx => ⟨Uring.Drain.posted_of_delivered hd hx, x.argument_eq⟩, ?_⟩
  intro method ev hcalling
  exact ⟨LinuxAio.World.gives_of_calling hs hrun hcalling, ev.argument_eq_iff⟩

namespace LinuxAio.World

/-- Of two reads the first one is completed with `res`, and the other one cancelled with `res'`. -/
def readsRun (res res' : Int64) : List Action :=
  [.setCallback 16 7, .setCallback 32 9, .submit 0 [.operation 16, .operation 32] (.ok 2),
    .complete 0 16 res, .cancel 0 32 (.ok res'), .processEvents 0 0 0 (.ok 1), .settle 0,
    .callback 0, .settle 1, .callback 1]

theorem readsRun_calling (res res' : Int64) (hrun : ((system.exec new (readsRun res res')).any
    fun t => decide (t.calls = [⟨.cancel, [⟨32, res'⟩], .calling 9 ⟨32, res'⟩ []⟩,
      ⟨.processEvents, [⟨16, res⟩], .calling 7 ⟨16, res⟩ []⟩])) = true) :
    ∃ t, system.exec new (readsRun res res') = some t ∧ t.Calling .processEvents ⟨16, res⟩ ∧
      t.Calling .cancel ⟨32, res'⟩ := by
  obtain ⟨t, ht, hcalls⟩ := (Option.any_eq_true _ _).mp hrun
  have hcalls := of_decide_eq_true hcalls
  have hevents : ⟨.processEvents, [⟨16, res⟩], .calling 7 ⟨16, res⟩ []⟩ ∈ t.calls := by
    rw [hcalls]
    exact List.mem_cons_of_mem _ List.mem_cons_self
  have hcancel : ⟨.cancel, [⟨32, res'⟩], .calling 9 ⟨32, res'⟩ []⟩ ∈ t.calls := by
    rw [hcalls]
    exact List.mem_cons_self
  exact ⟨t, ht, ⟨_, hevents, rfl, 7, [], rfl⟩, _, hcancel, rfl, 9, [], rfl⟩

theorem callback_number_reads :
    ∃ t, system.exec new (readsRun 8 2) = some t ∧
      (t.Calling .processEvents ⟨16, 8⟩ ∧ (⟨16, 8⟩ : IoEvent).argument = 8) ∧
      t.Calling .cancel ⟨32, 2⟩ ∧ (⟨32, 2⟩ : IoEvent).argument = 2 := by
  obtain ⟨t, ht, hevents, hcancel⟩ := readsRun_calling 8 2 (by decide +kernel)
  have hdrain : Uring.Drain.system.Reachable (Uring.Drain.start Uring.Drain.wrapping (some 7)) :=
    .init (Uring.Drain.start_init (by decide) (by decide))
  have hiff := (callback_number_iff hdrain new_init ht).2
  exact ⟨t, ht, ⟨hevents, (hiff _ _ hevents).2.mpr (by decide)⟩,
    hcancel, (hiff _ _ hcancel).2.mpr (by decide)⟩

/-- A read that fails with `EIO`, and one that is cancelled with `ECANCELED`: both callbacks get
numbers above 2^63. -/
theorem callback_number_failed :
    ∃ t, system.exec new (readsRun (-5) (-125)) = some t ∧
      (t.Calling .processEvents ⟨16, -5⟩ ∧ (⟨16, -5⟩ : IoEvent).argument = 2 ^ 64 - 5) ∧
      t.Calling .cancel ⟨32, -125⟩ ∧ (⟨32, -125⟩ : IoEvent).argument = 2 ^ 64 - 125 := by
  obtain ⟨t, ht, hevents, hcancel⟩ := readsRun_calling (-5) (-125) (by decide +kernel)
  exact ⟨t, ht, ⟨hevents, by decide⟩, hcancel, by decide⟩

end LinuxAio.World

end Caio
