import Caio.Lib.Table
import Caio.Asyncio.Distinct
import Caio.Asyncio.Results

/-!
# No cross-talk

A coroutine with an Operation of its own returns what that Operation has come to, and
no step of another coroutine bears on it.
-/

namespace Caio.Asyncio

open Agreement (Request Outcome Value)

/-! ## Operations -/

namespace Operation

theorem getValue_claim_complete (op : Operation) (req : Request) (out : Outcome) (b b' : Bool)
    (memory : UInt64 → List UInt8) :
    ((op.complete req out).claim b).getValue memory =
      ((op.claim b').complete req out).getValue memory := by
  cases op with
  | pythonAio op =>
    obtain ⟨kind, fd, offset⟩ := req
    cases out with
    | failure errno => rfl
    | success r content => cases kind <;> rfl
  | threadAio op =>
    simp only [complete, claim, getValue, Agreement.threadAioGet, ThreadAio.AIOOperation.getValue,
      ThreadAio.AIOOperation.complete, ThreadAio.AIOOperation.publish,
      ThreadAio.AIOOperation.record, ThreadAio.AIOOperation.take, Bool.not_true, Bool.and_false]
    rfl
  | linuxUring op =>
    simp only [complete, claim, getValue, Agreement.uringGet, Uring.AIOOperation.getValue,
      Uring.AIOOperation.complete, Bool.not_true, Bool.and_false]
  | linuxAio op =>
    simp only [complete, claim, getValue, Agreement.linuxAioGet, Agreement.linuxAioBuffer,
      LinuxAio.AIOOperation.getValue, LinuxAio.AIOOperation.complete, Bool.not_true, Bool.and_false]

theorem getValue_complete_ne (kind : Kind) (req : Request) (place : Place) (out : Outcome)
    (b : Bool) (memory : UInt64 → List UInt8) :
    (((construct kind req place).claim b).complete req out).getValue memory ≠
      .error inFlightError := by
  have hmap : ∀ {α : Type} {x : Except PyErr α} {f : α → Value},
      x ≠ .error inFlightError → x.map f ≠ .error inFlightError := by
    intro α x f hx hcon
    cases x with
    | ok a => cases hcon
    | error exc =>
      apply hx
      cases hcon
      rfl
  cases kind with
  | pythonAio =>
    obtain ⟨what, fd, offset⟩ := req
    intro hcon
    cases out with
    | failure errno => cases what <;> cases hcon
    | success r content => cases what <;> cases hcon
  | threadAio =>
    apply hmap
    intro hcon
    have hfly := (ThreadAio.AIOOperation.getValue_runtimeError_iff _ _).mp ⟨_, hcon⟩
    simp only [ThreadAio.AIOOperation.complete, ThreadAio.AIOOperation.publish, Bool.not_true,
      Bool.and_false, Bool.false_eq_true] at hfly
  | linuxUring =>
    apply hmap
    intro hcon
    have hfly := (Uring.AIOOperation.getValue_runtimeError_iff _ _).mp ⟨_, hcon⟩
    simp only [Uring.AIOOperation.inFlight, Uring.AIOOperation.complete, Bool.not_true,
      Bool.and_false, Bool.false_eq_true] at hfly
  | linuxAio =>
    apply hmap
    intro hcon
    have hfly := (LinuxAio.AIOOperation.getValue_runtimeError_iff _ _).mp ⟨_, hcon⟩
    simp only [LinuxAio.AIOOperation.complete, Bool.not_true, Bool.and_false,
      Bool.false_eq_true] at hfly

end Operation

/-- Whether an Operation shows its outcome when its call is at a stage. -/
def Stage.shows (kind : Kind) : Stage → Bool
  | .delivered => true
  | .completed => kind.threaded
  | .idle | .queued | .running => false

def Stage.early : Stage → Bool
  | .idle | .queued | .running => true
  | .completed | .delivered => false

theorem Stage.shows_of_early (kind : Kind) {stage : Stage} (h : stage.early = true) :
    stage.shows kind = false := by
  cases stage with
  | idle | queued | running => rfl
  | completed | delivered => cases h

namespace Entry

/-- The system is done with the request, and its outcome is in the buffer. -/
def Finished (e : Entry) (out : Outcome) : Prop :=
  e.outcome = some out ∧ e.buffer = Agreement.bufferOf e.request out

/-- What an Operation is at a stage of its call. -/
structure Ok (kind : Kind) (stage : Stage) (e : Entry) : Prop where
  finished : stage.early = false → ∃ out, e.Finished out
  fresh : stage.shows kind = false → e.operation = .construct kind e.request e.place
  settled : stage.shows kind = true → ∀ out, e.outcome = some out →
    e.operation = (Operation.construct kind e.request e.place).complete e.request out

variable {kind : Kind} {stage stage' : Stage} {e : Entry} {out : Outcome}

theorem new_ok (kind : Kind) (req : Request) (place : Place) :
    Ok kind .idle (.new kind req place) :=
  ⟨fun h => (by cases h), fun _ => rfl, fun h => (by cases h)⟩

theorem Ok.constructed (h : e.Ok kind stage) (hearly : stage.early = true) :
    e.operation = .construct kind e.request e.place := h.fresh (Stage.shows_of_early kind hearly)

theorem Ok.early (h : e.Ok kind stage) (hfrom : stage.early = true) (hto : stage'.early = true) :
    e.Ok kind stage' := by
  refine ⟨fun hf => ?_, fun _ => h.constructed hfrom, fun hs => ?_⟩
  · rw [hto] at hf
    cases hf
  · rw [Stage.shows_of_early kind hto] at hs
    cases hs

theorem Finished.settle (h : e.Finished out) :
    e.settle = { e with operation := e.operation.complete e.request out } := by
  rw [Entry.settle, h.1]

theorem Ok.complete_threaded (h : e.Ok kind stage) (hearly : stage.early = true)
    (hkind : kind.threaded = true) : ((e.transfer out).settle).Ok kind .completed := by
  have hfinished : (e.transfer out).Finished out := ⟨rfl, rfl⟩
  rw [hfinished.settle]
  refine ⟨fun _ => ⟨out, hfinished⟩, fun hs => ?_, fun _ out' hout => ?_⟩
  · rw [Stage.shows, hkind] at hs
    cases hs
  · cases hout
    show (e.transfer out).operation.complete _ out = _
    exact congrArg (Operation.complete e.request out) (h.constructed hearly)

theorem Ok.complete (h : e.Ok kind stage) (hearly : stage.early = true)
    (hkind : kind.threaded = false) : (e.transfer out).Ok kind .completed := by
  refine ⟨fun _ => ⟨out, rfl, rfl⟩, fun _ => ?_, fun hs => ?_⟩
  · exact h.constructed hearly
  · rw [Stage.shows, hkind] at hs
    cases hs

theorem Ok.transfer (h : e.Ok kind stage) (hearly : stage.early = true) (out : Outcome) :
    (e.transfer out).Ok kind stage := by
  refine ⟨fun hf => ?_, fun _ => h.constructed hearly, fun hs => ?_⟩
  · rw [hearly] at hf
    cases hf
  · rw [Stage.shows_of_early kind hearly] at hs
    cases hs

theorem Ok.deliver_threaded (h : e.Ok kind .completed) (hkind : kind.threaded = true) :
    e.Ok kind .delivered :=
  ⟨fun _ => h.finished rfl, fun hs => (by cases hs), fun _ => h.settled hkind⟩

theorem Ok.deliver (h : e.Ok kind .completed) (hkind : kind.threaded = false) :
    e.settle.Ok kind .delivered := by
  obtain ⟨out, hout⟩ := h.finished rfl
  rw [hout.settle]
  refine ⟨fun _ => ⟨out, hout⟩, fun hs => (by cases hs), fun _ out' hout' => ?_⟩
  have heq : out = out' := Option.some.inj (hout.1.symm.trans hout')
  rw [← heq]
  exact congrArg (Operation.complete e.request out) (h.fresh hkind)

theorem Ok.getValue (h : e.Ok kind .delivered) (b : Bool) :
    ∃ out, e.outcome = some out ∧ (e.operation.claim b).getValue e.memory = e.value kind out := by
  obtain ⟨out, hout, hbuffer⟩ := h.finished rfl
  refine ⟨out, hout, ?_⟩
  rw [h.settled rfl out hout, Entry.memory, hbuffer,
    Operation.getValue_claim_complete _ _ _ b true]
  rfl

theorem outcomeOf_value (kind : Kind) (e : Entry) {out : Outcome}
    (hlen : e.request.length < 2 ^ 31) (hout : e.request.Allows out) :
    Agreement.outcomeOf (e.value kind out) = Agreement.answer e.request out := by
  cases kind with
  | pythonAio => exact Agreement.pythonAio_eq e.request out
  | threadAio => exact Agreement.threadAio_eq hlen hout e.place.buf e.place.view
  | linuxUring => exact Agreement.uring_eq hlen hout e.place.buf
  | linuxAio => exact Agreement.linuxAio_eq hlen hout e.place.self e.place.buf

theorem value_ne_inFlightError (kind : Kind) (e : Entry) (out : Outcome) :
    e.value kind out ≠ .error inFlightError :=
  Operation.getValue_complete_ne kind e.request e.place out true _

end Entry

namespace World

open Base (Owned)

variable {cfg : Config} {w w' w'' : World} {i j : ℕ} {c c' c'' : Call}

/-! ## Steps of one call -/

/-- What a step of call `i` leaves alone. -/
structure Frame (w w' : World) (i : ℕ) (c c' : Call) : Prop where
  call : w.base.calls[i]? = some c
  calls : w'.base.calls = w.base.calls.set i c'
  op : c'.op = c.op
  ops : ∀ p, p ≠ c.op → w'.base.ops p = w.base.ops p
  entries : ∀ p, p ≠ c.op → w'.entries p = w.entries p
  futures : ∀ f, f ≠ i → w'.base.futures f = w.base.futures f
  /-- A future is resolved at most once. -/
  done : (w.base.futures i).done = true → w'.base.futures i = w.base.futures i
  soon : ∀ f, f ≠ i → (f ∈ w'.base.soon ↔ f ∈ w.base.soon)
  notifying : ∀ f, f ≠ i → (f ∈ w'.notifying ↔ f ∈ w.notifying)
  pending : ∀ f, f ≠ i → (f ∈ w'.base.pending ↔ f ∈ w.base.pending)
  returned : ∀ f, f ≠ i → w'.returned f = w.returned f

theorem Frame.self (h : Frame w w' i c c') : w'.base.calls[i]? = some c' := by
  rw [h.calls]
  exact Table.getElem?_set_self h.call _

theorem Frame.ne (h : Frame w w' i c c') (hne : j ≠ i) :
    w'.base.calls[j]? = w.base.calls[j]? := by
  rw [h.calls]
  exact List.getElem?_set_ne hne.symm

theorem Frame.trans (h : Frame w w' i c c') (h' : Frame w' w'' i c' c'') : Frame w w'' i c c'' where
  call := h.call
  calls := by rw [h'.calls, h.calls, List.set_set]
  op := h'.op.trans h.op
  ops p hp := (h'.ops p (h.op ▸ hp)).trans (h.ops p hp)
  entries p hp := (h'.entries p (h.op ▸ hp)).trans (h.entries p hp)
  futures f hf := (h'.futures f hf).trans (h.futures f hf)
  done hdone := by
    have hkeep := h.done hdone
    exact (h'.done (by rw [hkeep]; exact hdone)).trans hkeep
  soon f hf := (h'.soon f hf).trans (h.soon f hf)
  notifying f hf := (h'.notifying f hf).trans (h.notifying f hf)
  pending f hf := (h'.pending f hf).trans (h.pending f hf)
  returned f hf := (h'.returned f hf).trans (h.returned f hf)

theorem Frame.refl (hc : w.base.calls[i]? = some c) : Frame w w i c c :=
  ⟨hc, (Table.set_self hc).symm, rfl, fun _ _ => rfl, fun _ _ => rfl, fun _ _ => rfl,
    fun _ => rfl,
    fun _ _ => .rfl, fun _ _ => .rfl, fun _ _ => .rfl, fun _ _ => rfl⟩

theorem Frame.base {t : Base} (hc : w.base.calls[i]? = some c)
    (hcalls : t.calls = w.base.calls.set i c') (hop : c'.op = c.op)
    (hops : ∀ p, p ≠ c.op → t.ops p = w.base.ops p)
    (hfutures : ∀ f, f ≠ i ∨ (w.base.futures f).done = true → t.futures f = w.base.futures f)
    (hsoon : t.soon = w.base.soon)
    (hpending : ∀ f, f ≠ i → (f ∈ t.pending ↔ f ∈ w.base.pending)) :
    Frame w { w with base := t } i c c' where
  call := hc
  calls := hcalls
  op := hop
  ops := hops
  entries _ _ := rfl
  futures f hf := hfutures f (.inl hf)
  done hdone := hfutures i (.inr hdone)
  soon f _ := by
    show f ∈ t.soon ↔ _
    rw [hsoon]
  notifying _ _ := .rfl
  pending := hpending
  returned _ _ := rfl

theorem Frame.setCall (hc : w.base.calls[i]? = some c) (hop : c'.op = c.op) :
    Frame w { w with base := w.base.setCall i c' } i c c' :=
  .base hc rfl hop (fun _ _ => rfl) (fun _ _ => rfl) rfl fun _ _ => .rfl

theorem Frame.leave (hc : w.base.calls[i]? = some c) :
    Frame w { w with base := w.base.leave i c } i c { c with phase := .left } :=
  .base hc rfl rfl (fun _ _ => rfl) (fun _ _ => rfl) rfl fun _ _ => .rfl

theorem Frame.modify (hc : w.base.calls[i]? = some c) (f : Entry → Entry) :
    Frame w (w.modify c.op f) i c c :=
  { Frame.refl hc with entries := fun _ hp => Function.update_of_ne hp .. }

theorem Frame.setFuture (hc : w.base.calls[i]? = some c)
    (hopen : (w.base.futures i).done = false) (x : Future) :
    Frame w { w with base := w.base.setFuture i x } i c c := by
  refine .base hc (Table.set_self hc).symm rfl (fun _ _ => rfl) (fun f hf => ?_) rfl
    fun _ _ => .rfl
  apply Base.setFuture_futures_ne
  rintro rfl
  rcases hf with hf | hf
  · exact hf rfl
  · rw [hopen] at hf
    cases hf

/-! ## Steps of a coroutine -/

/-- A step of call `i` by which no Operation is completed. -/
structure Quiet (w : World) (t : Base) (i : ℕ) (c c' : Call) : Prop
    extends Frame w { w with base := t } i c c' where
  stage : c'.stage = c.stage ∨ c.stage.early = true ∧ c'.stage.early = true
  claim : c'.stage = .idle → c.stage = .idle ∧ t.ops c.op = w.base.ops c.op

variable {t : Base}

theorem quiet_setCall (hc : w.base.calls[i]? = some c) (hop : c'.op = c.op)
    (hstage : c'.stage = c.stage) : Quiet w (w.base.setCall i c') i c c' :=
  ⟨.setCall hc hop, .inl hstage, fun hidle => ⟨hstage.symm.trans hidle, rfl⟩⟩

theorem quiet_leave (hc : w.base.calls[i]? = some c) :
    Quiet w (w.base.leave i c) i c { c with phase := .left } :=
  ⟨.leave hc, .inl rfl, fun hidle => ⟨hidle, rfl⟩⟩

theorem quiet_accept (hc : w.base.calls[i]? = some c) (hop : c'.op = c.op)
    (hidle : c.stage = .idle) : Quiet w (w.base.accept i c') i c { c' with stage := .queued } := by
  refine ⟨.base hc rfl hop (fun p hp => ?_) (fun _ _ => rfl) rfl fun _ _ => .rfl, ?_, ?_⟩
  · apply Function.update_of_ne
    rwa [hop]
  · right
    rw [hidle]
    exact ⟨rfl, rfl⟩
  · intro h
    cases h

theorem Quiet.trans {u : Base} (h : Quiet w t i c c') (h' : Quiet { w with base := t } u i c' c'') :
    Quiet w u i c c'' := by
  refine ⟨h.toFrame.trans h'.toFrame, ?_, fun hidle => ?_⟩
  · rcases h'.stage with heq | ⟨hfrom, hto⟩
    · rw [heq]
      exact h.stage
    · rcases h.stage with heq | ⟨hfrom', -⟩
      · exact .inr ⟨heq ▸ hfrom, hto⟩
      · exact .inr ⟨hfrom', hto⟩
  · obtain ⟨hidle', hops'⟩ := h'.claim hidle
    obtain ⟨hidle, hops⟩ := h.claim hidle'
    have hops' : u.ops c'.op = t.ops c'.op := hops'
    rw [h.op] at hops'
    exact ⟨hidle, hops'.trans hops⟩

theorem quiet_acquire (hs : w.base.step cfg (.acquire i) = some t) : ∃ c c', Quiet w t i c c' := by
  obtain ⟨c, hc, hs⟩ := Base.onCall_eq_some hs
  obtain ⟨-, hs⟩ := Option.ite_none_right_eq_some.mp hs
  cases hs
  exact ⟨c, { c with phase := .granted }, .base hc rfl rfl (fun _ _ => rfl) (fun _ _ => rfl) rfl
    fun _ _ => .rfl, .inl rfl, fun hidle => ⟨hidle, rfl⟩⟩

theorem quiet_enter (h : Owned w.base) {answer : Base.Answer}
    (hs : w.base.step cfg (.enter i answer) = some t) : ∃ c c', Quiet w t i c c' := by
  obtain ⟨c, hc, hs⟩ := Base.onCall_eq_some hs
  obtain ⟨hphase, hs⟩ := Option.ite_none_right_eq_some.mp hs
  cases hs
  have hidle : c.stage = .idle := ((h.fine i c hc).outside (.inr hphase)).1
  unfold Base.enter
  split_ifs
  · refine ⟨c, { c with phase := .awaiting }, .base hc rfl rfl (fun _ _ => rfl) (fun _ _ => rfl) rfl
      fun f hf => ?_, .inl rfl, fun hidle => ⟨hidle, rfl⟩⟩
    show f ∈ w.base.pending ++ [i] ↔ _
    rw [List.mem_append, List.mem_singleton]
    exact or_iff_left hf
  · exact ⟨c, _, quiet_leave hc⟩
  · exact ⟨c, _, quiet_leave hc⟩
  · cases answer with
    | refused => exact ⟨c, _, quiet_leave hc⟩
    | accepted flushed =>
      dsimp only
      have hqueued : Quiet w (w.base.accept i c) i c { c with stage := .queued } :=
        quiet_accept hc rfl hidle
      split_ifs
      · exact ⟨c, _, hqueued.trans (quiet_leave hqueued.self)⟩
      · exact ⟨c, _, quiet_accept hc rfl hidle⟩

theorem quiet_start (hs : w.base.step cfg (.start i) = some t) : ∃ c c', Quiet w t i c c' := by
  obtain ⟨c, hc, hs⟩ := Base.onCall_eq_some hs
  obtain ⟨hstage, hs⟩ := Option.ite_none_right_eq_some.mp hs
  cases hs
  refine ⟨c, { c with stage := .running }, .setCall hc rfl, .inr ⟨?_, rfl⟩, ?_⟩
  · rw [hstage]
    rfl
  · intro hidle
    cases hidle

theorem quiet_cancel (hs : w.base.step cfg (.cancel i) = some t) : ∃ c c', Quiet w t i c c' := by
  obtain ⟨c, hc, hs⟩ := Base.onCall_eq_some hs
  split at hs
  case h_1 =>
    cases hs
    exact ⟨c, _, quiet_setCall hc rfl rfl⟩
  case h_2 =>
    cases hs
    exact ⟨c, _, quiet_leave hc⟩
  case h_3 =>
    cases hs
    have hmoved : Quiet w (w.base.setCall i { c with phase := .unwinding }) i c
        { c with phase := .unwinding } := quiet_setCall hc rfl rfl
    split_ifs with hdone
    · exact ⟨c, _, hmoved⟩
    · exact ⟨c, _, hmoved.trans ⟨.setFuture hmoved.self (Bool.not_eq_true _ ▸ hdone) .cancelled,
        .inl rfl, fun hidle => ⟨hidle, rfl⟩⟩⟩
  case h_4 => cases hs

theorem quiet_unwind (cfg : Config) (hc : w.base.calls[i]? = some c) :
    Quiet w (w.base.unwind cfg i c false) i c { c with phase := .left } := by
  unfold Base.unwind
  split
  · exact quiet_leave hc
  · exact quiet_leave hc
  · split_ifs
    · exact quiet_leave hc
    · exact ⟨.base hc rfl rfl (fun _ _ => rfl) (fun _ _ => rfl) rfl fun _ _ => .rfl, .inl rfl,
        fun hidle => ⟨hidle, rfl⟩⟩
  · rw [if_neg (fun hcon => Bool.false_ne_true hcon.1)]
    exact quiet_leave hc

/-! ## Completions -/

theorem Frame.onDone (cfg : Config) (hc : w.base.calls[i]? = some c) :
    Frame w (w.onDone cfg i) i c c := by
  unfold World.onDone
  split_ifs with hdone
  · exact .refl hc
  · exact { Frame.refl hc with notifying := fun f hf => List.mem_cons.trans (or_iff_right hf) }
  · rw [World.resolve, if_neg hdone]
    exact .setFuture hc (Bool.not_eq_true _ ▸ hdone) .result

/-- The Operation of call `i` with its outcome stored, before its callback. -/
def settled (cfg : Config) (w : World) (i : ℕ) (c : Call) : World :=
  { (if cfg.kind.threaded then w else w.modify c.op Entry.settle) with
    base := w.base.setCall i { c with stage := .delivered } }

theorem deliver_eq (h : Owned w.base) (hc : w.base.calls[i]? = some c) :
    w.deliver cfg i c = (w.settled cfg i c).onDone cfg i := by
  rw [World.deliver]
  simp only [h.own i c hc]
  rfl

theorem Frame.settled (cfg : Config) (hc : w.base.calls[i]? = some c) :
    Frame w (w.settled cfg i c) i c { c with stage := .delivered } := by
  unfold World.settled
  split_ifs
  · exact .setCall hc rfl
  · exact (Frame.modify hc Entry.settle).trans (.setCall hc rfl)

theorem Frame.deliver (cfg : Config) (h : Owned w.base) (hc : w.base.calls[i]? = some c) :
    Frame w (w.deliver cfg i c) i c { c with stage := .delivered } := by
  rw [deliver_eq h hc]
  have hsettled := Frame.settled cfg hc
  exact hsettled.trans (.onDone cfg hsettled.self)

/-! ## The invariant -/

/-- What a call has returned is the value of its Operation. -/
def HasValue (cfg : Config) (w : World) (i : ℕ) (r : Except PyErr Value) : Prop :=
  ∃ c e out, w.base.calls[i]? = some c ∧ c.stage = .delivered ∧ w.entries c.op = some e ∧
    e.outcome = some out ∧ r = e.value cfg.kind out

structure CallOk (cfg : Config) (w : World) (c : Call) : Prop where
  unclaimed : c.stage = .idle → (w.base.ops c.op).inProgress = false
  entry : ∃ e, w.entries c.op = some e ∧ e.Ok cfg.kind c.stage

structure Inv (cfg : Config) (w : World) : Prop where
  owned : Owned w.base
  ok : ∀ (i : ℕ) (c : Call), w.base.calls[i]? = some c → CallOk cfg w c
  notifying : ∀ f ∈ w.notifying, ∃ c, w.base.calls[f]? = some c ∧ c.stage = .delivered
  returned : ∀ i r, w.returned i = some r → HasValue cfg w i r
  valid : w.invalidState = false

theorem Init.inv (h : Init cfg w) : Inv cfg w := by
  refine ⟨Base.Init.owned h.base, fun i c hc => ?_, fun f hf => ?_, fun i r hr => ?_,
    h.invalidState⟩
  · rw [h.base.calls, List.getElem?_nil] at hc
    cases hc
  · rw [h.notifying] at hf
    cases hf
  · rw [h.returned] at hr
    cases hr

/-- What is left to prove of a step of call `i` is what it does to the call itself. -/
theorem Inv.frame (h : Inv cfg w) (hf : Frame w w' i c c') (howned : Owned w'.base)
    (hok : CallOk cfg w' c')
    (hkept : c.stage = .delivered → c'.stage = .delivered ∧ w'.entries c.op = w.entries c.op)
    (hnotified : i ∈ w'.notifying → i ∈ w.notifying ∨ c'.stage = .delivered)
    (hreturned : ∀ r, w'.returned i = some r → w.returned i = some r ∨ HasValue cfg w' i r)
    (hvalid : w'.invalidState = false) : Inv cfg w' := by
  have hop : ∀ {j : ℕ} {d : Call}, w.base.calls[j]? = some d → j ≠ i → d.op ≠ c.op :=
    fun hd hne heq => hne (h.owned.distinct _ _ _ _ hd hf.call heq)
  -- the callback of a call that was called stays called, and its Operation is final
  have hdelivered : ∀ {j : ℕ} {d : Call}, w.base.calls[j]? = some d → d.stage = .delivered →
      ∃ d', w'.base.calls[j]? = some d' ∧ d'.stage = .delivered ∧
        w'.entries d'.op = w.entries d.op := by
    intro j d hd hstage
    by_cases hji : j = i
    · subst hji
      rw [hf.call] at hd
      cases hd
      obtain ⟨hstage', hentry⟩ := hkept hstage
      exact ⟨c', hf.self, hstage', by rw [hf.op, hentry]⟩
    · exact ⟨d, (hf.ne hji).trans hd, hstage, hf.entries _ (hop hd hji)⟩
  refine ⟨howned, fun j d hd => ?_, fun f hfm => ?_, fun j r hr => ?_, hvalid⟩
  · by_cases hji : j = i
    · subst hji
      rw [hf.self] at hd
      cases hd
      exact hok
    · rw [hf.ne hji] at hd
      have hold := h.ok j d hd
      refine ⟨fun hidle => ?_, ?_⟩
      · rw [hf.ops _ (hop hd hji)]
        exact hold.unclaimed hidle
      · rw [hf.entries _ (hop hd hji)]
        exact hold.entry
  · by_cases hfi : f = i
    · subst hfi
      rcases hnotified hfm with hold | hnew
      · obtain ⟨d, hd, hstage⟩ := h.notifying f hold
        obtain ⟨d', hd', hstage', -⟩ := hdelivered hd hstage
        exact ⟨d', hd', hstage'⟩
      · exact ⟨c', hf.self, hnew⟩
    · obtain ⟨d, hd, hstage⟩ := h.notifying f ((hf.notifying f hfi).mp hfm)
      exact ⟨d, (hf.ne hfi).trans hd, hstage⟩
  · have hkeep : w.returned j = some r → HasValue cfg w' j r := by
      intro hold
      obtain ⟨d, e, out, hd, hstage, he, hout, heq⟩ := h.returned j r hold
      obtain ⟨d', hd', hstage', hentry⟩ := hdelivered hd hstage
      exact ⟨d', e, out, hd', hstage', hentry.trans he, hout, heq⟩
    by_cases hji : j = i
    · subst hji
      rcases hreturned r hr with hold | hnew
      · exact hkeep hold
      · exact hnew
    · rw [hf.returned j hji] at hr
      exact hkeep hr

theorem CallOk.quiet (h : CallOk cfg w c) (hq : Quiet w t i c c') :
    CallOk cfg { w with base := t } c' := by
  obtain ⟨e, he, hok⟩ := h.entry
  refine ⟨fun hidle => ?_, e, ?_, ?_⟩
  · obtain ⟨hidle', hops⟩ := hq.claim hidle
    show (t.ops c'.op).inProgress = false
    rw [hq.op, hops]
    exact h.unclaimed hidle'
  · show w.entries c'.op = some e
    rw [hq.op]
    exact he
  · rcases hq.stage with heq | ⟨hfrom, hto⟩
    · rw [heq]
      exact hok
    · exact hok.early hfrom hto

theorem Inv.quiet (h : Inv cfg w) (hq : Quiet w t i c c') (howned : Owned t) :
    Inv cfg { w with base := t } := by
  refine h.frame hq.toFrame howned ((h.ok i c hq.call).quiet hq) (fun hd => ⟨?_, rfl⟩) .inl
    (fun _ => .inl) h.valid
  rcases hq.stage with heq | ⟨hfrom, -⟩
  · exact heq.trans hd
  · rw [hd] at hfrom
    cases hfrom

/-! ## Steps -/

theorem lift_eq_some {b : Option Base} (h : w.lift b = some w') :
    ∃ t, b = some t ∧ w' = { w with base := t } := by
  obtain ⟨t, ht, heq⟩ := Option.map_eq_some_iff.mp h
  exact ⟨t, ht, heq.symm⟩

theorem onCall_eq_some {f : Call → Option World} (h : w.onCall i f = some w') :
    ∃ c, w.base.calls[i]? = some c ∧ f c = some w' := Option.bind_eq_some_iff.mp h

theorem modify_entries_self {e : Entry} (f : Entry → Entry) {p : OpId}
    (he : w.entries p = some e) : (w.modify p f).entries p = some (f e) := by
  show Function.update w.entries p _ p = _
  rw [Function.update_self, he]
  rfl

theorem Inv.notices (h : Inv cfg w) {soon notifying : List FutureId}
    (hsoon : ∀ f ∈ soon, ∃ c, w.base.calls[f]? = some c ∧ c.stage = .delivered)
    (hnotifying : ∀ f ∈ notifying, ∃ c, w.base.calls[f]? = some c ∧ c.stage = .delivered) :
    Inv cfg { w with base := { w.base with soon }, notifying } :=
  ⟨h.owned.withSoon hsoon, fun i c hc => ⟨(h.ok i c hc).unclaimed, (h.ok i c hc).entry⟩, hnotifying,
    h.returned, h.valid⟩

theorem Inv.resolve (h : Inv cfg w) (hc : w.base.calls[i]? = some c) (hdone : c.stage = .delivered)
    (hopen : (w.base.futures i).done = false) :
    Inv cfg { w with base := w.base.setFuture i .result } :=
  h.quiet ⟨.setFuture hc hopen .result, .inl rfl, fun hidle => ⟨hidle, rfl⟩⟩
    (h.owned.resolved hc hdone)

theorem Inv.onDone (h : Inv cfg w) (hc : w.base.calls[i]? = some c) (hdone : c.stage = .delivered) :
    Inv cfg (w.onDone cfg i) := by
  unfold World.onDone
  split_ifs with hx
  · exact h
  · apply h.notices h.owned.soon
    intro f hf
    rcases List.mem_cons.mp hf with rfl | hf
    · exact ⟨c, hc, hdone⟩
    · exact h.notifying f hf
  · rw [World.resolve, if_neg hx]
    exact h.resolve hc hdone (Bool.not_eq_true _ ▸ hx)

theorem Inv.settled (h : Inv cfg w) (hc : w.base.calls[i]? = some c)
    (hstage : c.stage.undelivered = true)
    (hentry : ∃ e, w.entries c.op = some e ∧ e.Ok cfg.kind .completed) :
    Inv cfg (w.settled cfg i c) := by
  have hdelivered : c.stage ≠ .delivered := by
    intro heq
    rw [heq] at hstage
    cases hstage
  refine h.frame (.settled cfg hc) (h.owned.delivered hc hstage) ⟨fun hidle => (by cases hidle), ?_⟩
    (fun hd => absurd hd hdelivered) (fun _ => .inr rfl) (fun r hr => .inl ?_) ?_
  · obtain ⟨e, he, hok⟩ := hentry
    unfold World.settled
    split_ifs with hkind
    · exact ⟨e, he, hok.deliver_threaded hkind⟩
    · exact ⟨e.settle, modify_entries_self _ he, hok.deliver (Bool.not_eq_true _ ▸ hkind)⟩
  · unfold World.settled at hr
    split_ifs at hr
    · exact hr
    · exact hr
  · unfold World.settled
    split_ifs
    · exact h.valid
    · exact h.valid

theorem Inv.deliver (h : Inv cfg w) (hc : w.base.calls[i]? = some c)
    (hstage : c.stage.undelivered = true)
    (hentry : ∃ e, w.entries c.op = some e ∧ e.Ok cfg.kind .completed) :
    Inv cfg (w.deliver cfg i c) := by
  rw [deliver_eq h.owned hc]
  exact (h.settled hc hstage hentry).onDone (Frame.settled cfg hc).self rfl

theorem Inv.complete (h : Inv cfg w) {out : Outcome}
    (hs : w.step cfg (.complete i out) = some w') :
    Inv cfg w' ∧ ∃ c c', Frame w w' i c c' := by
  obtain ⟨c, hc, hs⟩ := onCall_eq_some hs
  obtain ⟨t, ht, rfl⟩ := lift_eq_some hs
  have howned : Owned t := h.owned.complete ht
  obtain ⟨d, hd, ht⟩ := Base.onCall_eq_some ht
  obtain ⟨hstage, ht⟩ := Option.ite_none_right_eq_some.mp ht
  have hd : w.base.calls[i]? = some d := hd
  rw [hc] at hd
  cases hd
  cases ht
  have hf : Frame w { w.modify c.op (fun e => if cfg.kind.threaded then (e.transfer out).settle
      else e.transfer out) with base := w.base.setCall i { c with stage := .completed } } i c
      { c with stage := .completed } := (Frame.modify hc _).trans (.setCall hc rfl)
  obtain ⟨e, he, hok⟩ := (h.ok i c hc).entry
  have hearly : c.stage.early = true := by
    rw [hstage]
    rfl
  have hnot : c.stage ≠ .delivered := by
    rw [hstage]
    decide
  refine ⟨h.frame hf howned ⟨fun hidle => (by cases hidle), _, modify_entries_self _ he, ?_⟩
    (fun hd => absurd hd hnot) .inl (fun _ => .inl) h.valid, c, _, hf⟩
  split_ifs with hkind
  · exact hok.complete_threaded hearly hkind
  · exact hok.complete hearly (Bool.not_eq_true _ ▸ hkind)

theorem Inv.callSoon (h : Inv cfg w) {f : FutureId} (hs : w.step cfg (.callSoon f) = some w') :
    Inv cfg w' ∧ ∃ c c', Frame w w' f c c' := by
  obtain ⟨hf, hs⟩ := Option.ite_none_right_eq_some.mp hs
  cases hs
  obtain ⟨c, hc, hdone⟩ := h.notifying f hf
  refine ⟨h.notices (h.owned.addSoon hc hdone).soon fun g hg => ?_, c, c, ?_⟩
  · exact h.notifying g (List.mem_of_mem_erase hg)
  · refine { Frame.refl hc with soon := fun g hg => ?_, notifying := fun g hg => ?_ }
    · exact List.mem_append.trans (or_iff_left fun hm => hg (List.mem_singleton.mp hm))
    · exact List.mem_erase_of_ne hg

theorem Inv.runSoon (h : Inv cfg w) (hs : w.step cfg .runSoon = some w') :
    Inv cfg w' ∧ ∃ f c c', Frame w w' f c c' := by
  simp only [World.step] at hs
  split at hs
  case h_1 => cases hs
  case h_2 f fs hsoon =>
    cases hs
    obtain ⟨c, hc, hdone⟩ := h.owned.soon f (by rw [hsoon]; exact List.mem_cons_self)
    have hrest : Inv cfg { w with base := { w.base with soon := fs } } := by
      apply h.notices _ h.notifying
      intro g hg
      exact h.owned.soon g (by rw [hsoon]; exact List.mem_cons_of_mem _ hg)
    have hframe : Frame w { w with base := { w.base with soon := fs } } f c c := by
      refine { Frame.refl hc with soon := fun g hg => ?_ }
      rw [hsoon]
      exact (List.mem_cons.trans (or_iff_right hg)).symm
    split_ifs with hx
    · exact ⟨hrest, f, c, c, hframe⟩
    · have hopen : (w.base.futures f).done = false := Bool.not_eq_true _ ▸ hx
      rw [World.resolve, if_neg hx]
      exact ⟨hrest.resolve hc hdone hopen, f, c, c, hframe.trans
        (.setFuture (w := { w with base := { w.base with soon := fs } }) hc hopen .result)⟩

theorem Inv.deliver_step (h : Inv cfg w) (hs : w.step cfg (.deliver i) = some w') :
    Inv cfg w' ∧ ∃ c c', Frame w w' i c c' := by
  obtain ⟨c, hc, hs⟩ := onCall_eq_some hs
  obtain ⟨hstage, hs⟩ := Option.ite_none_right_eq_some.mp hs
  cases hs
  have hentry := (h.ok i c hc).entry
  rw [hstage] at hentry
  refine ⟨h.deliver hc ?_ hentry, c, _, .deliver cfg h.owned hc⟩
  rw [hstage]
  rfl

/-- A coroutine that goes on with the result of its future has the value of its Operation. -/
theorem Inv.getValue (h : Inv cfg w) (hc : w.base.calls[i]? = some c)
    (hresult : w.base.futures i = .result) {r : Except PyErr Value}
    (hr : w.getValue c.op = some r) : HasValue cfg w i r := by
  have hdone : c.stage = .delivered := (h.owned.fine i c hc).result hresult
  obtain ⟨e, he, hok⟩ := (h.ok i c hc).entry
  rw [hdone] at hok
  obtain ⟨out, hout, hvalue⟩ := hok.getValue (w.base.ops c.op).inProgress
  refine ⟨c, e, out, hc, hdone, he, hout, ?_⟩
  rw [World.getValue, he] at hr
  exact (Option.some.inj hr).symm.trans hvalue

theorem Inv.resume (h : Inv cfg w) (hs : w.step cfg (.resume i) = some w') :
    Inv cfg w' ∧ (∃ c c', Frame w w' i c c') ∧
      ∀ r, w'.returned i = some r → w.returned i = some r ∨ HasValue cfg w i r := by
  obtain ⟨c, hc, hs⟩ := onCall_eq_some hs
  obtain ⟨⟨-, hdone⟩, hs⟩ := Option.ite_none_right_eq_some.mp hs
  cases hs
  have hleave := quiet_leave hc
  have hleft : Inv cfg { w with base := w.base.leave i c } :=
    h.quiet hleave (h.owned.leave hc fun _ => hdone)
  unfold World.resume
  split
  case h_1 hresult =>
    have hvalue : ∀ r, Function.update w.returned i (w.getValue c.op) i = some r →
        HasValue cfg w i r := by
      intro r hr
      rw [Function.update_self] at hr
      exact h.getValue hc hresult hr
    refine ⟨⟨hleft.owned, fun j d hd => ⟨(hleft.ok j d hd).unclaimed, (hleft.ok j d hd).entry⟩,
      hleft.notifying, fun j r hr => ?_, h.valid⟩, ⟨c, { c with phase := .left }, ?_⟩,
      fun r hr => .inr (hvalue r hr)⟩
    · by_cases hji : j = i
      · subst hji
        obtain ⟨d, e, out, hd, hrest⟩ := hvalue r hr
        rw [hc] at hd
        cases hd
        exact ⟨{ c with phase := .left }, e, out, hleave.self, hrest⟩
      · have hr : Function.update w.returned i (w.getValue c.op) j = some r := hr
        rw [Function.update_of_ne hji] at hr
        exact hleft.returned j r hr
    · exact { hleave.toFrame with returned := fun f hf => Function.update_of_ne hf .. }
  all_goals exact ⟨hleft, ⟨c, _, hleave.toFrame⟩, fun r hr => .inl hr⟩

theorem Inv.unwind (h : Inv cfg w) {cancelled : Option Outcome}
    (hs : w.step cfg (.unwind i cancelled) = some w') :
    Inv cfg w' ∧ ∃ c c', Frame w w' i c c' := by
  obtain ⟨c, hc, hs⟩ := onCall_eq_some hs
  obtain ⟨hphase, hs⟩ := Option.ite_none_right_eq_some.mp hs
  cases hs
  have hgone : Inv cfg { w with base := w.base.unwind cfg i c false } := by
    apply h.quiet (quiet_unwind cfg hc)
    exact h.owned.unwind (by
      show w.base.onCall i _ = _
      rw [Base.onCall, hc]
      exact if_pos hphase)
  have hframe := (quiet_unwind cfg hc).toFrame
  unfold World.unwind
  cases cancelled with
  | none => exact ⟨hgone, c, _, hframe⟩
  | some out =>
    dsimp only
    split_ifs with hcancel
    · obtain ⟨hkind, hopen⟩ := hcancel
      have hthreaded : cfg.kind.threaded = false := by
        rw [hkind]
        rfl
      have hearly : c.stage.early = true := by
        cases hstage : c.stage with
        | queued | running => rfl
        | idle | completed | delivered =>
          rw [hstage] at hopen
          cases hopen
      obtain ⟨e, he, hok⟩ := (h.ok i c hc).entry
      have hself := modify_entries_self (w := w) (·.transfer out) he
      have hmodify : Frame w (w.modify c.op (·.transfer out)) i c c := .modify hc _
      have hmid : Inv cfg (w.modify c.op (·.transfer out)) := by
        refine h.frame hmodify h.owned ⟨(h.ok i c hc).unclaimed, _, hself, hok.transfer hearly out⟩
          (fun hd => ?_) .inl (fun _ => .inl) h.valid
        rw [hd] at hearly
        cases hearly
      have hdeliver := Frame.deliver cfg hmid.owned hmodify.self
      have hdelivered := hmid.deliver hmodify.self (Stage.undelivered_of_outstanding hopen)
        ⟨_, hself, hok.complete hearly hthreaded⟩
      have hleave := quiet_leave hdeliver.self
      refine ⟨hdelivered.quiet hleave (hdelivered.owned.leave hdeliver.self fun ha => ?_), c, _,
        (hmodify.trans hdeliver).trans hleave.toFrame⟩
      have ha : c.phase = .awaiting := ha
      rw [hphase] at ha
      cases ha
    · exact ⟨hgone, c, _, hframe⟩

/-! ## Deferred batches -/

theorem failAll_eq (w : World) (exc : PyErr) (is : List ℕ) :
    w.failAll exc is = { w with base := w.base.failAll exc is } := by
  induction is generalizing w with
  | nil => rfl
  | cons i is ih =>
    rw [World.failAll, Base.failAll, ih]
    split_ifs with hdone
    · rfl
    · rw [World.resolve, if_neg hdone]

theorem deferredSubmit_eq (w : World) (answer : Except PyErr ℕ) :
    w.deferredSubmit answer = { w with base := w.base.deferredSubmit answer } := by
  cases answer with
  | error exc => exact failAll_eq ..
  | ok accepted => exact failAll_eq ..

/-- `submit` claims every Operation of a batch, if they are distinct and none is claimed. -/
theorem claimEntries_eq {s : Base} (h : Owned s) {is : List ℕ} (hnodup : is.Nodup)
    (busy : OpId → Bool)
    (hfree : ∀ i ∈ is, ∃ c, s.calls[i]? = some c ∧ busy c.op = false) :
    Base.claimEntries busy (s.entries is) = is := by
  induction is generalizing busy with
  | nil => rfl
  | cons i is ih =>
    obtain ⟨hi, hnodup⟩ := List.nodup_cons.mp hnodup
    obtain ⟨c, hc, hbusy⟩ := hfree i List.mem_cons_self
    have hcons : s.entries (i :: is) = (i, c.op) :: s.entries is := by
      rw [Base.entries, List.filterMap_cons, hc]
      rfl
    rw [hcons, Base.claimEntries, hbusy, if_neg Bool.false_ne_true, ih hnodup]
    intro j hj
    obtain ⟨d, hd, hdbusy⟩ := hfree j (List.mem_cons_of_mem _ hj)
    refine ⟨d, hd, ?_⟩
    rw [Function.update_of_ne, hdbusy]
    intro heq
    rw [h.distinct j i d c hd hc heq] at hj
    exact hi hj

theorem Inv.claimed_eq (h : Inv cfg w) : w.base.claimed = w.base.live := by
  apply claimEntries_eq h.owned (h.owned.nodup.filter _)
  intro i hi
  obtain ⟨c, hr⟩ := h.owned.ready hi
  exact ⟨c, hr.call, (h.ok i c hr.call).unclaimed hr.idle⟩

theorem Inv.fresh (h : Inv cfg w) (answer : Except PyErr ℕ) :
    w.base.Fresh (.deferredSubmit answer) := by
  cases answer with
  | error exc => trivial
  | ok accepted => exact congrArg (List.take accepted) h.claimed_eq

theorem Inv.deferredSubmit (h : Inv cfg w) (answer : Except PyErr ℕ) :
    Inv cfg (w.deferredSubmit answer) := by
  rw [deferredSubmit_eq]
  have hclear : Inv cfg { w with base := { w.base with pending := [] } } :=
    ⟨h.owned.clear, fun i c hc => ⟨(h.ok i c hc).unclaimed, (h.ok i c hc).entry⟩, h.notifying,
      h.returned, h.valid⟩
  refine (h.owned.deferredSubmit_induction
    (I := fun u => Inv cfg { w with base := u } ∧ u.pending = []) (h.fresh answer) ⟨hclear, rfl⟩
    (fun u i c hu hr => ⟨?_, hu.2⟩) fun u i c exc hu hr => ⟨?_, hu.2⟩).1
  · exact hu.1.quiet (quiet_accept (w := { w with base := u }) hr.call rfl hr.idle)
      (hu.1.owned.accept hu.2 hr)
  · have hopen : (u.futures i).done = false := by
      rw [hr.pending]
      rfl
    exact hu.1.quiet ⟨.setFuture (w := { w with base := u }) hr.call hopen (.exception exc),
      .inl rfl,
      fun hidle => ⟨hidle, rfl⟩⟩ (hu.1.owned.fail hu.2 hr exc)

theorem Inv.deferredSubmit_done (h : Inv cfg w) (answer : Except PyErr ℕ) {f : FutureId}
    (hf : (w.base.futures f).done = true) :
    (w.deferredSubmit answer).base.futures f = w.base.futures f := by
  rw [deferredSubmit_eq]
  refine h.owned.deferredSubmit_induction (I := fun u => u.futures f = w.base.futures f)
    (h.fresh answer) rfl (fun u i c hu hr => hu) fun u i c exc hu hr => ?_
  rw [Base.setFuture_futures_ne, hu]
  rintro rfl
  rw [← hu, hr.pending] at hf
  cases hf

/-! ## New calls -/

theorem Inv.call (h : Inv cfg w) {p : OpId} {req : Request} {place : Place}
    (hs : w.step cfg (.call p req place) = some w') :
    Inv cfg w' ∧ w'.base.futures = w.base.futures := by
  obtain ⟨hnew, hs⟩ := Option.ite_none_right_eq_some.mp hs
  obtain ⟨t, ht, rfl⟩ := lift_eq_some hs
  have hop : ∀ {i : ℕ} {c : Call}, w.base.calls[i]? = some c → c.op ≠ p :=
    fun hc => hnew _ (List.mem_of_getElem? hc)
  have hconstructed : Owned { w.base with ops := Function.update w.base.ops p {} } := by
    refine { h.owned with own := fun i c hc => ?_ }
    show (Function.update w.base.ops p {} c.op).callback = _
    rw [Function.update_of_ne (hop hc)]
    exact h.owned.own i c hc
  have howned : Owned t := hconstructed.submit hnew ht
  cases ht
  have hkeep : ∀ {i : ℕ} {c d : Call}, w.base.calls[i]? = some c →
      (w.base.calls ++ [d])[i]? = some c := fun hc => Table.getElem?_append_of_some hc _
  refine ⟨⟨howned, fun i c hc => ?_, fun f hf => ?_, fun i r hr => ?_, h.valid⟩, rfl⟩
  · rcases Table.getElem?_append_one_cases hc with hc | ⟨-, rfl⟩
    · have hold := h.ok i c hc
      refine ⟨fun hidle => ?_, ?_⟩
      · show (Function.update (Function.update w.base.ops p {}) p _ c.op).inProgress = false
        rw [Function.update_of_ne (hop hc), Function.update_of_ne (hop hc)]
        exact hold.unclaimed hidle
      · show ∃ e, Function.update w.entries p _ c.op = some e ∧ _
        rw [Function.update_of_ne (hop hc)]
        exact hold.entry
    · refine ⟨fun _ => ?_, .new cfg.kind req place, Function.update_self .., Entry.new_ok ..⟩
      show (Function.update (Function.update w.base.ops p {}) p _ p).inProgress = false
      rw [Function.update_self]
      show (Function.update w.base.ops p {} p).inProgress = false
      rw [Function.update_self]
  · obtain ⟨c, hc, hdone⟩ := h.notifying f hf
    exact ⟨c, hkeep hc, hdone⟩
  · obtain ⟨c, e, out, hc, hdone, he, hout, heq⟩ := h.returned i r hr
    exact ⟨c, e, out, hkeep hc, hdone, (Function.update_of_ne (hop hc) ..).trans he, hout, heq⟩

/-! ## Runs -/

/-- A step keeps the invariant, and no future that is done changes; a step of one call touches
nothing of the others. -/
theorem Inv.step (h : Inv cfg w) {a : Action} (hs : w.step cfg a = some w') :
    Inv cfg w' ∧ (∀ f, (w.base.futures f).done = true → w'.base.futures f = w.base.futures f) ∧
      ∀ i, a.call? = some i → ∃ c c', Frame w w' i c c' := by
  have hdone : ∀ {i : ℕ} {c c' : Call}, Frame w w' i c c' →
      ∀ f, (w.base.futures f).done = true → w'.base.futures f = w.base.futures f := by
    intro i c c' hf f hfd
    by_cases hfi : f = i
    · subst hfi
      exact hf.done hfd
    · exact hf.futures f hfi
  have hone : ∀ {i : ℕ}, (Inv cfg w' ∧ ∃ c c', Frame w w' i c c') → a.call? = some i →
      Inv cfg w' ∧ (∀ f, (w.base.futures f).done = true → w'.base.futures f = w.base.futures f) ∧
        ∀ i, a.call? = some i → ∃ c c', Frame w w' i c c' := by
    rintro i ⟨hinv, c, c', hf⟩ hcall
    refine ⟨hinv, hdone hf, fun j hj => ?_⟩
    rw [hcall] at hj
    cases hj
    exact ⟨c, c', hf⟩
  have hquiet : ∀ {i : ℕ} {t : Base}, (∃ c c', Quiet w t i c c') → Owned t →
      Inv cfg { w with base := t } ∧ ∃ c c', Frame w { w with base := t } i c c' := by
    rintro i t ⟨c, c', hq⟩ howned
    exact ⟨h.quiet hq howned, c, c', hq.toFrame⟩
  cases a with
  | call p req place =>
    obtain ⟨hinv, hfutures⟩ := h.call hs
    exact ⟨hinv, fun f _ => by rw [hfutures], fun i hi => by cases hi⟩
  | acquire i =>
    obtain ⟨t, ht, rfl⟩ := lift_eq_some hs
    exact hone (hquiet (quiet_acquire ht) (h.owned.acquire ht)) rfl
  | enter i answer =>
    obtain ⟨t, ht, rfl⟩ := lift_eq_some hs
    exact hone (hquiet (quiet_enter h.owned ht) (h.owned.enter ht)) rfl
  | start i =>
    obtain ⟨t, ht, rfl⟩ := lift_eq_some hs
    exact hone (hquiet (quiet_start ht) (h.owned.start ht)) rfl
  | complete i out => exact hone (h.complete hs) rfl
  | deliver i => exact hone (h.deliver_step hs) rfl
  | callSoon f => exact hone (h.callSoon hs) rfl
  | runSoon =>
    obtain ⟨hinv, f, c, c', hf⟩ := h.runSoon hs
    exact ⟨hinv, hdone hf, fun i hi => by cases hi⟩
  | resume i =>
    obtain ⟨hinv, hf, -⟩ := h.resume hs
    exact hone ⟨hinv, hf⟩ rfl
  | cancel i =>
    obtain ⟨t, ht, rfl⟩ := lift_eq_some hs
    exact hone (hquiet (quiet_cancel ht) (h.owned.cancel ht)) rfl
  | unwind i cancelled => exact hone (h.unwind hs) rfl
  | deferredSubmit answer =>
    have heq : w' = w.deferredSubmit answer := by
      cases answer with
      | error exc => exact (Option.some.inj hs).symm
      | ok accepted => exact (Option.some.inj (Option.ite_none_right_eq_some.mp hs).2).symm
    rw [heq]
    exact ⟨h.deferredSubmit answer, fun f => h.deferredSubmit_done answer, fun i hi => by cases hi⟩
  | consumeCancel =>
    obtain ⟨t, ht, rfl⟩ := lift_eq_some hs
    have howned : Owned t := h.owned.step (a := .consumeCancel) trivial ht
    obtain ⟨-, ht⟩ := Option.ite_none_right_eq_some.mp ht
    cases ht
    exact ⟨⟨howned, fun i c hc => ⟨(h.ok i c hc).unclaimed, (h.ok i c hc).entry⟩, h.notifying,
      h.returned, h.valid⟩, fun f _ => rfl, fun i hi => by cases hi⟩

theorem inv (h : (system cfg).Reachable w) : Inv cfg w :=
  h.invariant (fun _ => Init.inv) fun _ _ _ hinv _ hs => (hinv.step hs).1

/-- What call `j` goes by: its coroutine, its future, its Operation and what the loop and the worker
threads hold for it. How much room the semaphore and the backend have is no part of it. -/
structure Untouched (w w' : World) (j : ℕ) : Prop where
  call : w'.base.calls[j]? = w.base.calls[j]?
  future : w'.base.futures j = w.base.futures j
  operation : ∀ c, w.base.calls[j]? = some c →
    w'.base.ops c.op = w.base.ops c.op ∧ w'.entries c.op = w.entries c.op
  soon : j ∈ w'.base.soon ↔ j ∈ w.base.soon
  notifying : j ∈ w'.notifying ↔ j ∈ w.notifying
  pending : j ∈ w'.base.pending ↔ j ∈ w.base.pending
  returned : w'.returned j = w.returned j

theorem Frame.untouched (h : Owned w.base) (hf : Frame w w' i c c') (hne : j ≠ i) :
    Untouched w w' j := by
  refine ⟨hf.ne hne, hf.futures j hne, fun d hd => ?_, hf.soon j hne, hf.notifying j hne,
    hf.pending j hne, hf.returned j hne⟩
  have hop : d.op ≠ c.op := fun heq => hne (h.distinct _ _ _ _ hd hf.call heq)
  exact ⟨hf.ops _ hop, hf.entries _ hop⟩

/-- Every coroutine has what its own Operation came to. -/
structure Separate (cfg : Config) (w : World) : Prop where
  own : ∀ i r, w.returned i = some r → HasValue cfg w i r
  /-- The bytes, their number or `None`, and an exception for a failure. -/
  answered : ∀ i r, w.returned i = some r → ∃ c e out, w.base.calls[i]? = some c ∧
    w.entries c.op = some e ∧ e.outcome = some out ∧ (e.request.length < 2 ^ 31 →
      e.request.Allows out → Agreement.outcomeOf r = Agreement.answer e.request out)
  landed : ∀ i, w.returned i ≠ some (.error inFlightError)
  once : w.invalidState = false

/-- A step of one coroutine, or of its Operation, is of no consequence for another. -/
structure Isolated (cfg : Config) (w : World) (a : Action) (w' : World) : Prop where
  others : ∀ i, a.call? = some i → ∀ j, j ≠ i → Untouched w w' j
  /-- A future that is done stays as it is. -/
  once : ∀ f, (w.base.futures f).done = true → w'.base.futures f = w.base.futures f
  /-- `get_value()` comes after the completion. -/
  after : ∀ i r, a = .resume i → w'.returned i = some r → HasValue cfg w i r

/-- In every run of coroutines on Operations of their own. -/
theorem no_cross_talk (cfg : Config) (h : (system cfg).Reachable w) :
    Separate cfg w ∧ ∀ a w', w.step cfg a = some w' → Isolated cfg w a w' := by
  have hinv := inv h
  refine ⟨⟨hinv.returned, fun i r hr => ?_, fun i hi => ?_, hinv.valid⟩, fun a w' hs => ?_⟩
  · obtain ⟨c, e, out, hc, -, he, hout, rfl⟩ := hinv.returned i r hr
    exact ⟨c, e, out, hc, he, hout, e.outcomeOf_value cfg.kind⟩
  · obtain ⟨c, e, out, -, -, -, -, heq⟩ := hinv.returned i _ hi
    exact e.value_ne_inFlightError cfg.kind out heq.symm
  · obtain ⟨-, hdone, hframe⟩ := hinv.step hs
    refine ⟨fun i hi j hne => ?_, hdone, fun i r ha hr => ?_⟩
    · obtain ⟨c, c', hf⟩ := hframe i hi
      exact hf.untouched hinv.owned hne
    · rw [ha] at hs
      obtain ⟨-, -, hvalue⟩ := hinv.resume hs
      rcases hvalue r hr with hold | hnew
      · exact hinv.returned i r hold
      · exact hnew

def threads : Config where
  kind := .threadAio
  arg := some 2
  sqEntries_ge := fun h => by cases h

/-- A read and a write, completed in the other order. The read is cancelled when its worker has
found the future open; the worker still calls `call_soon_threadsafe`. -/
def crossedRun : List Action :=
  [.call 5 ⟨.read 2, 3, 0⟩ ⟨1, ⟨16, by decide⟩, 2⟩,
    .call 9 ⟨.write [1, 2, 3], 3, 0⟩ ⟨3, ⟨32, by decide⟩, 4⟩,
    .acquire 0, .enter 0 (.accepted true), .acquire 1, .enter 1 (.accepted true), .start 0,
    .start 1, .complete 1 (.success 3 []), .complete 0 (.success 2 [7, 8]), .deliver 0, .deliver 1,
    .cancel 0, .callSoon 1, .callSoon 0, .runSoon, .runSoon, .unwind 0 none, .resume 1]

theorem no_cross_talk_crossed : ∃ w, (system threads).exec (new threads) crossedRun = some w ∧
    w.base.futures 0 = .cancelled ∧ w.returned 0 = none ∧ w.returned 1 = some (.ok (.int 3)) ∧
    Separate threads w ∧ ∀ a w', w.step threads a = some w' → Isolated threads w a w' := by
  have hrun : (((system threads).exec (new threads) crossedRun).any fun w =>
      decide (w.base.futures 0 = .cancelled ∧ w.returned 0 = none ∧
        w.returned 1 = some (.ok (.int 3)))) = true := by decide +kernel
  obtain ⟨w, hexec, hends⟩ := (Option.any_eq_true _ _).mp hrun
  obtain ⟨hcancelled, hnone, hvalue⟩ := of_decide_eq_true hends
  have hreach : (system threads).Reachable w := .exec (.init (new_init threads)) hexec
  exact ⟨w, hexec, hcancelled, hnone, hvalue, no_cross_talk threads hreach⟩

end World

end Caio.Asyncio
