import Caio.Lib.EventCounter
import Caio.Lib.Transition
import Caio.Python

/-!
# The event loop and `_on_read_event`

The protocol between the kernel, the event loop and the adapters of linux_uring and
linux_aio, whose `_on_read_event` is the same: `poll()`, then `process_events()`
until it returns 0. A completion that finds the ring of linux_uring full is posted to the
backlog of the kernel.
-/

namespace Caio.Asyncio

/-- A drain up to its callbacks: the completions it has taken and what it will return. -/
structure Scanned (σ δ : Type) where
  state : σ
  batch : List δ
  ret : Except PyErr ℕ

/-- A number that `while self.context.process_events()` goes on for. -/
def Positive (ret : Except PyErr ℕ) : Prop := ∃ n, ret = .ok (n + 1)

/-- What the protocol needs of a backend. -/
structure Backend where
  State : Type
  Event : Type
  Completion : Type
  Snapshot : Type
  decEq : DecidableEq Event
  /-- The completion of an Operation that an event stands for. -/
  completion : Event → Option Completion
  /-- `late` is a choice that the kernel has. -/
  post : State → Event → Bool → State
  /-- Posted completions that a drain can take. -/
  queue : State → List Completion
  /-- Those that the kernel keeps back. -/
  backlog : State → List Completion
  /-- The completion of the event would be kept back. -/
  Overflows : State → Event → Bool → Prop
  decOverflows : ∀ s e late, Decidable (Overflows s e late)
  /-- `IORING_ENTER_GETEVENTS` -/
  getEvents : State → State
  snapshot : State → Snapshot
  /-- A drain of at most `max` completions; the last argument says that a signal is pending for
  the thread. -/
  scan : State → Snapshot → UInt32 → Bool → Scanned State Completion
  /-- The end of the turn of one callback. -/
  deliver : State → Completion → State
  maxDefault : UInt32
  Ok : State → Prop
  Valid : State → Snapshot → Prop
  /-- The completions that a drain with this snapshot does not see. -/
  since : State → Snapshot → List Completion
  backlog_of_ok : ∀ {s}, Ok s → backlog s = []
  ok_post : ∀ {s e late}, Ok s → ¬Overflows s e late → Ok (post s e late)
  queue_post : ∀ {s e late}, Ok s → ¬Overflows s e late →
    queue (post s e late) = queue s ++ (completion e).toList
  valid_post : ∀ {s e late x}, Ok s → Valid s x → ¬Overflows s e late → Valid (post s e late) x
  since_post : ∀ {s e late x}, Ok s → Valid s x → ¬Overflows s e late →
    (since (post s e late) x).Sublist (since s x ++ (completion e).toList)
  ok_getEvents : ∀ {s}, Ok s → Ok (getEvents s)
  queue_getEvents : ∀ {s}, Ok s → queue (getEvents s) = queue s
  valid_snapshot : ∀ {s}, Ok s → Valid s (snapshot s)
  since_snapshot : ∀ s, since s (snapshot s) = []
  ok_scan : ∀ {s x} (max b), Ok s → Valid s x → Ok (scan s x max b).state
  queue_scan : ∀ {s x} (max b), Ok s → Valid s x →
    queue s = (scan s x max b).batch ++ queue (scan s x max b).state
  scan_stop : ∀ {s x} (b), Ok s → Valid s x → ¬Positive (scan s x maxDefault b).ret →
    (queue s).Sublist (since s x)
  ok_deliver : ∀ {s} (x), Ok s → Ok (deliver s x)
  queue_deliver : ∀ s x, queue (deliver s x) = queue s

instance (B : Backend) : DecidableEq B.Event := B.decEq

instance (B : Backend) (s : B.State) (e : B.Event) (late : Bool) :
    Decidable (B.Overflows s e late) := B.decOverflows s e late

/-- A call that drains: `process_events()` or `flush()`. -/
inductive DrainCall (B : Backend)
  | scanning (max : UInt32) (snapshot : B.Snapshot)
  /-- The loop over the callbacks; `todo` have not had their turn. -/
  | delivering (todo : List B.Completion) (ret : Except PyErr ℕ)

/-- `_on_read_event`; `polled` is before a call of `process_events`. -/
inductive Handler (B : Backend)
  | idle
  | entered
  | polled
  | draining (call : DrainCall B)

variable {B : Backend}

def DrainCall.todo : DrainCall B → List B.Completion
  | .scanning .. => []
  | .delivering todo _ => todo

def DrainCall.Scanning : DrainCall B → Prop
  | .scanning .. => True
  | .delivering .. => False

namespace Handler

def call : Handler B → List (DrainCall B)
  | .draining c => [c]
  | _ => []

def PastPoll : Handler B → Prop
  | .idle | .entered => False
  | .polled | .draining _ => True

instance (h : Handler B) : Decidable h.PastPoll :=
  match h with
  | .idle | .entered => isFalse id
  | .polled | .draining _ => isTrue trivial

/-- The call will end, or will be over, without another look at the queue. -/
def Leaving : Handler B → Prop
  | .idle | .entered => True
  | .draining (.delivering _ ret) => ¬Positive ret
  | _ => False

/-- After `process_events` has returned, or raised. -/
def next : Except PyErr ℕ → Handler B
  | .ok (_ + 1) => .polled
  | _ => .idle

theorem leaving_of_not_pastPoll {h : Handler B} (hp : ¬h.PastPoll) : h.Leaving := by
  cases h with
  | idle | entered => trivial
  | polled | draining => exact absurd trivial hp

theorem next_leaving {ret : Except PyErr ℕ} (h : (next ret : Handler B).Leaving) :
    ¬Positive ret := by
  rintro ⟨n, rfl⟩
  exact h

end Handler

structure Loop (B : Backend) where
  backend : B.State
  /-- The eventfd. -/
  event : EventCounter B.Event
  handler : Handler B
  /-- Other calls under way on the loop's thread, the innermost first. -/
  calls : List (DrainCall B)

namespace Loop

inductive Action (B : Backend)
  /-- The event loop calls `_on_read_event`. -/
  | readEvent
  | poll
  | processEvents
  /-- A call of `flush()`, or of `process_events()` by someone else. -/
  | call (max : UInt32)
  | scan (signalPending : Bool)
  | deliver
  | ret
  | post (e : B.Event) (late : Bool)
  | signal (rest : List B.Event)
  /-- Someone else enters the kernel before a call of `process_events()`. -/
  | getEvents

def stack (s : Loop B) : List (DrainCall B) := s.calls ++ s.handler.call

/-- Python code may run: the innermost call is not scanning. -/
def Running (s : Loop B) : Prop := ∀ c ∈ s.stack.head?, ¬c.Scanning

instance (c : DrainCall B) : Decidable c.Scanning :=
  match c with
  | .scanning .. => isTrue trivial
  | .delivering .. => isFalse id

instance (s : Loop B) : Decidable s.Running := by
  unfold Running
  infer_instance

def step (s : Loop B) : Action B → Option (Loop B)
  | .readEvent =>
    match s.handler, s.calls with
    | .idle, [] => some { s with handler := .entered }
    | _, _ => none
  | .poll =>
    match s.handler, s.calls with
    -- the `BlockingIOError` for a counter of zero is passed over
    | .entered, [] => some { s with handler := .polled, event := s.event.read }
    | _, _ => none
  | .processEvents =>
    match s.handler, s.calls with
    | .polled, [] =>
      some { s with handler := .draining (.scanning B.maxDefault (B.snapshot s.backend)) }
    | _, _ => none
  | .call max =>
    if s.Running then some { s with calls := .scanning max (B.snapshot s.backend) :: s.calls }
    else none
  | .scan signalPending =>
    match s.calls, s.handler with
    | .scanning max x :: calls, _ =>
      let r := B.scan s.backend x max signalPending
      some { s with backend := r.state, calls := .delivering r.batch r.ret :: calls }
    | [], .draining (.scanning max x) =>
      let r := B.scan s.backend x max signalPending
      some { s with backend := r.state, handler := .draining (.delivering r.batch r.ret) }
    | _, _ => none
  | .deliver =>
    match s.calls, s.handler with
    | .delivering (x :: todo) ret :: calls, _ =>
      some { s with backend := B.deliver s.backend x, calls := .delivering todo ret :: calls }
    | [], .draining (.delivering (x :: todo) ret) =>
      some { s with
        backend := B.deliver s.backend x
        handler := .draining (.delivering todo ret) }
    | _, _ => none
  | .ret =>
    match s.calls, s.handler with
    | .delivering [] _ :: calls, _ => some { s with calls }
    | [], .draining (.delivering [] ret) => some { s with handler := .next ret }
    | _, _ => none
  -- the eventfd is signalled for a completion that is kept back too
  | .post e late =>
    some { s with backend := B.post s.backend e late, event := s.event.announce e }
  | .signal rest => (s.event.signal rest).map fun event => { s with event }
  | .getEvents => if s.Running then some { s with backend := B.getEvents s.backend } else none

structure Init (s : Loop B) : Prop where
  ok : B.Ok s.backend
  queue : B.queue s.backend = []
  handler : s.handler = .idle
  calls : s.calls = []

def system (B : Backend) : TransitionSystem (Loop B) (Action B) := ⟨Init, step⟩

/-- Completions that a drain has taken or can take, before the turn of their callback, in the order
of their posts. -/
def listed (s : Loop B) : List B.Completion :=
  s.handler.call.flatMap DrainCall.todo ++ s.calls.reverse.flatMap DrainCall.todo ++
    B.queue s.backend

def undelivered (s : Loop B) : List B.Completion := s.listed ++ B.backlog s.backend

/-- Every completion in `l` has a signal of its own to come, or the counter is above zero. -/
def Owed (s : Loop B) (l : List B.Completion) : Prop :=
  0 < s.event.value ∨ l.Sublist (s.event.pending.filterMap B.completion)

/-- Nothing is undelivered without something that will wake the loop. -/
def Attended (s : Loop B) : Prop := s.handler.PastPoll ∨ s.Owed s.undelivered

/-- A step in which the kernel keeps a completion back. -/
def Overflows (s : Loop B) : Action B → Prop
  | .post e late => B.Overflows s.backend e late
  | _ => False

instance (s : Loop B) : (a : Action B) → Decidable (s.Overflows a)
  | .post e late => inferInstanceAs (Decidable (B.Overflows s.backend e late))
  | .readEvent | .poll | .processEvents | .call _ | .scan _ | .deliver | .ret | .signal _
  | .getEvents => isFalse id

structure Inv (s : Loop B) : Prop where
  ok : B.Ok s.backend
  below : ∀ c ∈ s.stack.tail, ¬c.Scanning
  valid : ∀ max x, s.stack.head? = some (.scanning max x) → B.Valid s.backend x
  leaving : s.handler.Leaving → s.Owed s.listed
  scanning : ∀ max x, s.handler = .draining (.scanning max x) →
    max = B.maxDefault ∧ s.Owed (B.since s.backend x)

variable {s t : Loop B}

theorem Owed.mono {l l' : List B.Completion} (h : s.Owed l) (hsub : l'.Sublist l) : s.Owed l' :=
  h.imp_right hsub.trans

theorem Owed.announce {l l' : List B.Completion} {e : B.Event} {backend : B.State} (h : s.Owed l)
    (hsub : l'.Sublist (l ++ (B.completion e).toList)) :
    ({ s with backend, event := s.event.announce e } : Loop B).Owed l' := by
  refine h.imp_right fun hl => hsub.trans ?_
  show (l ++ (B.completion e).toList).Sublist ((s.event.pending ++ [e]).filterMap B.completion)
  rw [List.filterMap_append]
  refine hl.append ?_
  cases hc : B.completion e with
  | none => exact List.nil_sublist _
  | some x =>
    rw [List.filterMap_cons_some hc]
    exact List.Sublist.refl _

theorem Init.inv (h : Init s) : Inv s := by
  have hstack : s.stack = [] := by rw [stack, h.calls, h.handler]; rfl
  refine ⟨h.ok, ?_, ?_, fun _ => .inr ?_, ?_⟩
  · rw [hstack]
    nofun
  · rw [hstack]
    nofun
  · rw [listed, h.queue, h.handler, h.calls]
    exact List.nil_sublist _
  · rw [h.handler]
    nofun

theorem Inv.readEvent (h : Inv s) (hs : s.step .readEvent = some t) : Inv t := by
  simp only [step] at hs
  split at hs
  case h_1 hhandler hcalls =>
    cases hs
    have hleave := h.leaving (by rw [hhandler]; trivial)
    refine ⟨h.ok, ?_, ?_, fun _ => ?_, nofun⟩
    · simp only [stack, hcalls]
      nofun
    · simp only [stack, hcalls]
      nofun
    · rw [listed, hhandler] at hleave
      exact hleave
  case h_2 => cases hs

theorem Inv.poll (h : Inv s) (hs : s.step .poll = some t) : Inv t := by
  simp only [step] at hs
  split at hs
  case h_1 hhandler hcalls =>
    cases hs
    refine ⟨h.ok, ?_, ?_, nofun, nofun⟩
    · simp only [stack, hcalls]
      nofun
    · simp only [stack, hcalls]
      nofun
  case h_2 => cases hs

theorem Inv.processEvents (h : Inv s) (hs : s.step .processEvents = some t) : Inv t := by
  simp only [step] at hs
  split at hs
  case h_1 hhandler hcalls =>
    cases hs
    refine ⟨h.ok, ?_, ?_, nofun, ?_⟩
    · simp only [stack, hcalls]
      nofun
    · intro max x hx
      simp only [stack, hcalls] at hx
      cases hx
      exact B.valid_snapshot h.ok
    · intro max x hx
      cases hx
      refine ⟨rfl, .inr ?_⟩
      rw [B.since_snapshot]
      exact List.nil_sublist _
  case h_2 => cases hs

theorem Inv.call (h : Inv s) {max : UInt32} (hs : s.step (.call max) = some t) : Inv t := by
  obtain ⟨hrun, hs⟩ := Option.ite_none_right_eq_some.mp hs
  cases hs
  refine ⟨h.ok, ?_, ?_, fun hl => ?_, h.scanning⟩
  · intro c hc
    change c ∈ s.stack at hc
    cases hstack : s.stack with
    | nil =>
      rw [hstack] at hc
      cases hc
    | cons d ds =>
      rw [hstack] at hc
      rcases List.mem_cons.mp hc with rfl | hc
      · exact hrun c (by rw [hstack]; rfl)
      · exact h.below c (by rw [hstack]; exact hc)
  · intro max x hx
    cases hx
    exact B.valid_snapshot h.ok
  · have howed := h.leaving hl
    have hsame : ({ s with calls := .scanning max (B.snapshot s.backend) :: s.calls } :
        Loop B).listed = s.listed := by
      simp [listed, DrainCall.todo]
    rw [hsame]
    exact howed

theorem Inv.not_scanning (h : Inv s) {c : DrainCall B} {calls : List (DrainCall B)} {max : UInt32}
    {x : B.Snapshot} (hcalls : s.calls = c :: calls) : s.handler ≠ .draining (.scanning max x) := by
  intro hhandler
  refine h.below (.scanning max x) ?_ trivial
  rw [stack, hcalls, hhandler]
  exact List.mem_append_right _ (List.mem_singleton_self _)

theorem Inv.scan (h : Inv s) {signalPending : Bool} (hs : s.step (.scan signalPending) = some t) :
    Inv t := by
  simp only [step] at hs
  split at hs
  case h_1 max x calls hcalls =>
    cases hs
    have hvalid : B.Valid s.backend x := h.valid max x (by rw [stack, hcalls]; rfl)
    have hbelow := h.below
    rw [stack, hcalls] at hbelow
    refine ⟨B.ok_scan _ _ h.ok hvalid, hbelow, nofun, fun hl => ?_,
      fun max' x' hx => absurd hx (h.not_scanning hcalls)⟩
    have howed := h.leaving hl
    rw [listed, hcalls, B.queue_scan max signalPending h.ok hvalid] at howed
    simpa [listed, DrainCall.todo, Owed] using howed
  case h_2 max x hcalls hhandler =>
    cases hs
    have hvalid : B.Valid s.backend x := h.valid max x (by rw [stack, hcalls, hhandler]; rfl)
    obtain ⟨rfl, howed⟩ := h.scanning max x hhandler
    refine ⟨B.ok_scan _ _ h.ok hvalid, ?_, ?_, fun hstop => ?_, nofun⟩
    · simp only [stack, hcalls]
      nofun
    · simp only [stack, hcalls]
      nofun
    · -- a number of zero says that only what came after the snapshot is there
      refine howed.mono ?_
      have hqueue := B.queue_scan B.maxDefault signalPending h.ok hvalid
      have hsince := B.scan_stop signalPending h.ok hvalid hstop
      rw [hqueue] at hsince
      simpa [listed, hcalls, Handler.call, DrainCall.todo] using hsince
  case h_3 => cases hs

theorem Inv.deliver (h : Inv s) (hs : s.step .deliver = some t) : Inv t := by
  simp only [step] at hs
  split at hs
  case h_1 x todo ret calls hcalls =>
    cases hs
    have hbelow := h.below
    rw [stack, hcalls] at hbelow
    refine ⟨B.ok_deliver _ h.ok, hbelow, nofun, fun hl => ?_,
      fun max' x' hx => absurd hx (h.not_scanning hcalls)⟩
    refine (h.leaving hl).mono ?_
    simp only [listed, hcalls, B.queue_deliver, List.reverse_cons, List.flatMap_append,
      List.flatMap_singleton, DrainCall.todo]
    refine List.Sublist.append ?_ (List.Sublist.refl _)
    refine (List.Sublist.refl _).append ?_
    exact (List.Sublist.refl _).append (List.sublist_cons_self x todo)
  case h_2 x todo ret hcalls hhandler =>
    cases hs
    refine ⟨B.ok_deliver _ h.ok, ?_, ?_, fun hl => ?_, nofun⟩
    · simp only [stack, hcalls]
      nofun
    · simp only [stack, hcalls]
      nofun
    · have howed := h.leaving (by rw [hhandler]; exact hl)
      refine howed.mono ?_
      simp only [listed, hcalls, hhandler, B.queue_deliver, Handler.call,
        List.flatMap_singleton, DrainCall.todo]
      refine List.Sublist.append ?_ (List.Sublist.refl _)
      exact (List.sublist_cons_self x todo).append (List.Sublist.refl _)
  case h_3 => cases hs

theorem Inv.ret (h : Inv s) (hs : s.step .ret = some t) : Inv t := by
  simp only [step] at hs
  split at hs
  case h_1 ret calls hcalls =>
    cases hs
    have hbelow : ∀ c ∈ calls ++ s.handler.call, ¬c.Scanning := by
      have := h.below
      rwa [stack, hcalls] at this
    refine ⟨h.ok, fun c hc => hbelow c (List.mem_of_mem_tail hc), fun max x hx => ?_,
      fun hl => ?_, h.scanning⟩
    · exact absurd trivial (hbelow _ (List.mem_of_mem_head? hx))
    · have howed := h.leaving hl
      rw [listed, hcalls] at howed
      simpa [listed, DrainCall.todo, Owed] using howed
  case h_2 ret hcalls hhandler =>
    cases hs
    have hcall : (Handler.next ret : Handler B).call = [] := by
      unfold Handler.next
      split <;> rfl
    refine ⟨h.ok, ?_, ?_, fun hl => ?_, fun max x hx => ?_⟩
    · simp only [stack, hcalls, hcall]
      nofun
    · simp only [stack, hcalls, hcall]
      nofun
    · have howed := h.leaving (by rw [hhandler]; exact Handler.next_leaving hl)
      rw [listed, hhandler] at howed
      simp only [listed, hcall]
      exact howed
    · have := congrArg Handler.call hx
      rw [hcall] at this
      cases this
  case h_3 => cases hs

theorem Inv.post (h : Inv s) {e : B.Event} {late : Bool} (hs : s.step (.post e late) = some t)
    (hroom : ¬B.Overflows s.backend e late) : Inv t := by
  cases hs
  refine ⟨B.ok_post h.ok hroom, h.below, fun max x hx => ?_, fun hl => ?_, fun max x hx => ?_⟩
  · exact B.valid_post h.ok (h.valid max x hx) hroom
  · refine (h.leaving hl).announce ?_
    simp only [listed, B.queue_post h.ok hroom, List.append_assoc]
    exact List.Sublist.refl _
  · obtain ⟨hmax, howed⟩ := h.scanning max x hx
    have hcalls : s.calls = [] := by
      cases hc : s.calls with
      | nil => rfl
      | cons c calls => exact absurd hx (h.not_scanning hc)
    have hvalid := h.valid max x (by rw [stack, hcalls, hx]; rfl)
    exact ⟨hmax, howed.announce (B.since_post h.ok hvalid hroom)⟩

theorem Inv.signal (h : Inv s) {rest : List B.Event} (hs : s.step (.signal rest) = some t) :
    Inv t := by
  obtain ⟨event, hevent, rfl⟩ := Option.map_eq_some_iff.mp hs
  have hvalue := EventCounter.value_signal hevent
  exact ⟨h.ok, h.below, h.valid, fun _ => .inl hvalue,
    fun max x hx => ⟨(h.scanning max x hx).1, .inl hvalue⟩⟩

theorem Inv.getEvents (h : Inv s) (hs : s.step .getEvents = some t) : Inv t := by
  obtain ⟨hrun, hs⟩ := Option.ite_none_right_eq_some.mp hs
  cases hs
  have hnot : ∀ max x, s.stack.head? ≠ some (.scanning max x) :=
    fun max x hx => absurd trivial (hrun _ hx)
  refine ⟨B.ok_getEvents h.ok, h.below, fun max x hx => absurd hx (hnot max x), fun hl => ?_,
    fun max x hx => ?_⟩
  · have howed := h.leaving hl
    rw [listed, ← B.queue_getEvents h.ok] at howed
    exact howed
  · have hcalls : s.calls = [] := by
      cases hc : s.calls with
      | nil => rfl
      | cons c calls => exact absurd hx (h.not_scanning hc)
    have hx : s.handler = .draining (.scanning max x) := hx
    refine absurd ?_ (hnot max x)
    rw [stack, hcalls, hx]
    rfl

theorem Inv.step (h : Inv s) {a : Action B} (hroom : ¬s.Overflows a) (hs : s.step a = some t) :
    Inv t := by
  cases a with
  | readEvent => exact h.readEvent hs
  | poll => exact h.poll hs
  | processEvents => exact h.processEvents hs
  | call max => exact h.call hs
  | scan signalPending => exact h.scan hs
  | deliver => exact h.deliver hs
  | ret => exact h.ret hs
  | post e late => exact h.post hs hroom
  | signal rest => exact h.signal hs
  | getEvents => exact h.getEvents hs

theorem attended (h : (system B).ReachableBy (fun s a => ¬s.Overflows a) s) : s.Attended := by
  have hinv : Inv s := h.invariant (fun _ => Init.inv) fun _ _ _ hi ha hs => hi.step ha hs
  by_cases hp : s.handler.PastPoll
  · exact .inl hp
  · have howed := hinv.leaving (Handler.leaving_of_not_pastPoll hp)
    rw [Attended, undelivered, B.backlog_of_ok hinv.ok, List.append_nil]
    exact .inr howed

end Loop

end Caio.Asyncio
