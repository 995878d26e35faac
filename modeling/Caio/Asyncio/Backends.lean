import Caio.Asyncio.ReadEvent
import Caio.LinuxAio.ProcessEvents
import Caio.Uring.World

namespace Caio.Asyncio

section Uring

open Uring

variable {cq : CqRing} {tail : UInt32} {e : Cqe}

abbrev UringState := Heap × Context

/-- The completions posted since `cq_tail` was `tail`. -/
def uringSince (cq : CqRing) (tail : UInt32) : List (OpPtr × Int32) :=
  completions (RingBuffer.window cq.size cq.cqes tail cq.tail)

def uringLate (k : Context) (late : Bool) : Prop := k.cq.Full ∨ late ∧ k.backlog ≠ []

instance (k : Context) (late : Bool) : Decidable (uringLate k late) :=
  inferInstanceAs (Decidable (_ ∨ _))

/-- `uring_drain_cq` up to its callbacks, with its snapshot of `cq_tail`. -/
def uringScan (s : UringState) (tail max : UInt32) : Scanned UringState (OpPtr × Int32) :=
  let r := drainCq s.1 { s.2.cq with tail } max
  ⟨(r.1, { s.2 with cq := s.2.cq.commit r.2.1.head }), r.2.2.batch, r.2.2.ret⟩

theorem completions_singleton (e : Cqe) : completions [e] = e.completion.toList := by
  cases h : e.completion with
  | none => exact List.filterMap_cons_none h
  | some x => exact List.filterMap_cons_some h

theorem room_post (hfull : ¬cq.Full) : ((cq.post e).tail - cq.head).toNat ≤ 2 ^ cq.size.log := by
  have hroom := CqRing.lt_of_not_full hfull
  have hpow := cq.size.pow_le
  show (cq.tail + 1 - cq.head).toNat ≤ _
  rw [RingBuffer.sub_toNat_succ (by omega)]
  exact hroom

theorem valid_post (hfull : ¬cq.Full)
    (hvalid : (cq.tail - tail).toNat ≤ (cq.tail - cq.head).toNat) :
    ((cq.post e).tail - tail).toNat ≤ ((cq.post e).tail - cq.head).toNat := by
  have hroom := CqRing.lt_of_not_full hfull
  have hpow := cq.size.pow_le
  show (cq.tail + 1 - tail).toNat ≤ (cq.tail + 1 - cq.head).toNat
  rw [RingBuffer.sub_toNat_succ (by omega), RingBuffer.sub_toNat_succ (by omega)]
  exact Nat.succ_le_succ hvalid

theorem uringSince_post (hfull : ¬cq.Full)
    (hvalid : (cq.tail - tail).toNat ≤ (cq.tail - cq.head).toNat) :
    uringSince (cq.post e) tail = uringSince cq tail ++ e.completion.toList := by
  have hwindow := CqRing.window_post e hfull hvalid
  rw [← completions_singleton, uringSince, uringSince, ← completions_append, ← hwindow]
  rfl

/-- What a scan takes is what leaves the queue; when it reports no completion, the queue holds only
what was posted after the snapshot. -/
theorem uringScan_spec (s : UringState) (max : UInt32)
    (hvalid : (s.2.cq.tail - tail).toNat ≤ (s.2.cq.tail - s.2.cq.head).toNat) :
    (uringScan s tail max).state.2.backlog = s.2.backlog ∧
    (((uringScan s tail max).state.2.cq.tail - (uringScan s tail max).state.2.cq.head).toNat ≤
      (s.2.cq.tail - s.2.cq.head).toNat) ∧
    (uringScan s tail max).state.2.cq.size = s.2.cq.size ∧
    completions s.2.cq.queue =
      (uringScan s tail max).batch ++ completions (uringScan s tail max).state.2.cq.queue ∧
    (0 < max.toNat → max.toNat < 2 ^ 31 → ¬Positive (uringScan s tail max).ret →
      completions s.2.cq.queue = uringSince s.2.cq tail) := by
  obtain ⟨heap, head, scan, es, hrun, hqueue, hroom, hbatch, hcount, hmost, hrest⟩ :=
    drainCq_snapshot s.1 s.2.cq max hvalid
  have hscan : uringScan s tail max =
      ⟨(heap, { s.2 with cq := s.2.cq.commit head }), scan.batch, scan.ret⟩ := by
    simp only [uringScan, hrun]
    rfl
  have htaken : completions s.2.cq.queue =
      scan.batch ++ completions (s.2.cq.commit head).queue := by
    rw [hqueue, completions_append, hbatch]
  rw [hscan]
  refine ⟨rfl, hroom, rfl, htaken, fun hpos hsmall hstop => ?_⟩
  have hnil : scan.batch = [] := by
    by_contra hne
    have hlen := List.length_pos_iff.mpr hne
    refine hstop ⟨scan.batch.length - 1, ?_⟩
    show scan.ret = _
    rw [Scan.ret_eq hcount (by omega), Nat.sub_add_cancel hlen]
  have hhead : head = tail := hrest (by rw [hnil]; exact hpos)
  rw [htaken, hnil, hhead]
  rfl

structure UringOk (k : Context) : Prop where
  room : (k.cq.tail - k.cq.head).toNat ≤ 2 ^ k.cq.size.log
  backlog : completions k.backlog = []

theorem uringPost_cases {k : Context} {late : Bool}
    (hroom : ¬(uringLate k late ∧ e.completion ≠ none)) :
    (¬k.cq.Full ∧ k.post e late = { k with cq := k.cq.post e }) ∨
      e.completion = none ∧ k.post e late = { k with backlog := k.backlog ++ [e] } := by
  by_cases hlate : uringLate k late
  · exact .inr ⟨not_not.mp fun hne => hroom ⟨hlate, hne⟩, if_pos hlate⟩
  · exact .inl ⟨fun hfull => hlate (.inl hfull), if_neg hlate⟩

theorem refill_sentinels {cq : CqRing} {es : List Cqe} (hes : completions es = [])
    (hroom : (cq.tail - cq.head).toNat ≤ 2 ^ cq.size.log) :
    ((Context.refill cq es).1.tail - (Context.refill cq es).1.head).toNat ≤
        2 ^ (Context.refill cq es).1.size.log ∧
      completions (Context.refill cq es).1.queue = completions cq.queue ∧
      completions (Context.refill cq es).2 = [] := by
  induction es generalizing cq with
  | nil => exact ⟨hroom, rfl, rfl⟩
  | cons e es ih =>
    by_cases hfull : cq.Full
    · rw [Context.refill, if_pos hfull]
      exact ⟨hroom, rfl, hes⟩
    · rw [Context.refill, if_neg hfull]
      have hsplit : completions [e] ++ completions es = [] := by
        rw [← completions_append]
        exact hes
      obtain ⟨he, hes⟩ := List.append_eq_nil_iff.mp hsplit
      obtain ⟨hroom', hqueue, hrest⟩ := ih hes (room_post hfull)
      refine ⟨hroom', hqueue.trans ?_, hrest⟩
      have hpost : completions (cq.post e).queue = completions cq.queue ++ e.completion.toList :=
        uringSince_post hfull le_rfl
      rw [hpost, ← completions_singleton, he, List.append_nil]

/-- linux_uring: `flush()` and `process_events()` take CQEs from the mapped ring. -/
def uring : Backend where
  State := UringState
  Event := Cqe
  Completion := OpPtr × Int32
  Snapshot := UInt32
  decEq := inferInstance
  completion := Cqe.completion
  post s e late := (s.1, s.2.post e late)
  queue s := completions s.2.cq.queue
  backlog s := completions s.2.backlog
  Overflows s e late := uringLate s.2 late ∧ e.completion ≠ none
  decOverflows _ _ _ := inferInstance
  getEvents s := (s.1, s.2.moveBacklog)
  snapshot s := s.2.cq.tail
  scan s tail max _ := uringScan s tail max
  deliver s x := (s.1.release x.1, s.2)
  maxDefault := evMaxRequestsDefault
  Ok s := UringOk s.2
  Valid s tail := (s.2.cq.tail - tail).toNat ≤ (s.2.cq.tail - s.2.cq.head).toNat
  since s tail := uringSince s.2.cq tail
  backlog_of_ok hok := hok.backlog
  ok_post {s e late} hok hroom := by
    rcases uringPost_cases hroom with ⟨hfull, hpost⟩ | ⟨hnone, hpost⟩
    · simp only [hpost]
      exact ⟨room_post hfull, hok.backlog⟩
    · simp only [hpost]
      refine ⟨hok.room, ?_⟩
      rw [completions_append, hok.backlog, completions_singleton, hnone]
      rfl
  queue_post {s e late} _ hroom := by
    rcases uringPost_cases hroom with ⟨hfull, hpost⟩ | ⟨hnone, hpost⟩
    · simp only [hpost]
      exact uringSince_post hfull le_rfl
    · simp only [hpost, hnone]
      exact (List.append_nil _).symm
  valid_post {s e late x} _ hvalid hroom := by
    rcases uringPost_cases hroom with ⟨hfull, hpost⟩ | ⟨-, hpost⟩
    · simp only [hpost]
      exact valid_post hfull hvalid
    · simp only [hpost]
      exact hvalid
  since_post {s e late x} _ hvalid hroom := by
    rcases uringPost_cases hroom with ⟨hfull, hpost⟩ | ⟨-, hpost⟩
    · simp only [hpost]
      exact (uringSince_post hfull hvalid) ▸ List.Sublist.refl _
    · simp only [hpost]
      exact List.sublist_append_left ..
  ok_getEvents hok :=
    have hrefill := refill_sentinels hok.backlog hok.room
    ⟨hrefill.1, hrefill.2.2⟩
  queue_getEvents hok := (refill_sentinels hok.backlog hok.room).2.1
  valid_snapshot _ := by
    rw [UInt32.sub_self]
    exact Nat.zero_le _
  since_snapshot s := by
    rw [uringSince, RingBuffer.window_self]
    rfl
  ok_scan {s x} max _ hok hvalid := by
    obtain ⟨hbacklog, hroom, hsize, -⟩ := uringScan_spec s max hvalid
    refine ⟨?_, hbacklog ▸ hok.backlog⟩
    rw [hsize]
    exact hroom.trans hok.room
  queue_scan max _ _ hvalid := (uringScan_spec _ max hvalid).2.2.2.1
  scan_stop _ _ hvalid hstop :=
    (uringScan_spec _ _ hvalid).2.2.2.2 (by decide) (by decide) hstop ▸ List.Sublist.refl _
  ok_deliver _ hok := hok
  queue_deliver _ _ := rfl

end Uring

/-- linux_aio: `process_events()` takes events from the kernel; an event always stands for an
Operation. A call sees all that is there when `io_getevents` runs. -/
def linuxAio : Backend where
  State := LinuxAio.Heap × List LinuxAio.IoEvent
  Event := LinuxAio.IoEvent
  Completion := LinuxAio.IoEvent
  Snapshot := Unit
  decEq := inferInstance
  completion := some
  -- the kernel has reserved room for the event when it took the request
  post s e _ := (s.1, s.2 ++ [e])
  queue s := s.2
  backlog _ := []
  Overflows _ _ _ := False
  decOverflows _ _ _ := inferInstance
  getEvents s := s
  snapshot _ := ()
  scan s _ maxRequests signalPending :=
    let r := LinuxAio.processEvents s.2 maxRequests signalPending
    ⟨(s.1, r.2.1), r.1, r.2.2⟩
  deliver s ev := (s.1.finalise ev, s.2)
  maxDefault := 0
  Ok _ := True
  Valid _ _ := True
  since _ _ := []
  backlog_of_ok _ := rfl
  ok_post _ _ := trivial
  queue_post _ _ := rfl
  valid_post _ _ _ := trivial
  since_post _ _ _ := List.nil_sublist _
  ok_getEvents _ := trivial
  queue_getEvents _ := rfl
  valid_snapshot _ := trivial
  since_snapshot _ := rfl
  ok_scan _ _ _ _ := trivial
  queue_scan max b _ _ := LinuxAio.processEvents_split _ max b
  scan_stop {s x} b _ _ hstop := by
    have hnil := LinuxAio.processEvents_default fun n hn => hstop ⟨n, hn⟩
    exact hnil ▸ List.Sublist.refl _
  ok_deliver _ _ := trivial
  queue_deliver _ _ := rfl

/-- Unless the kernel of linux_uring keeps a completion back, every undelivered completion has its
eventfd signal to come, or the counter is above zero, or `_on_read_event` is past its `poll()` and
has not seen `process_events()` return 0. On linux_aio that is always so. -/
theorem no_completion_stranded (s : Loop uring) (t : Loop linuxAio) :
    ((Loop.system uring).ReachableBy (fun s a => ¬s.Overflows a) s → s.Attended) ∧
      ((Loop.system linuxAio).Reachable t → t.Attended) := by
  refine ⟨Loop.attended, fun h => Loop.attended (h.mono ?_)⟩
  rintro s (_ | _ | _ | _ | _ | _ | _ | _ | _ | _) - hoverflows <;> exact hoverflows

def lateEvent {B : Backend} (e : B.Event) : List (Loop.Action B) :=
  [.readEvent, .poll, .processEvents, .scan false, .post e false, .ret]

def quiet {B : Backend} (backend : B.State) : Loop B := ⟨backend, ⟨0, []⟩, .idle, []⟩

/-- `Context(max_requests=1)`: two submission slots and four completion slots. -/
def uringStart : uring.State :=
  (Uring.World.initial.heap,
    { uringFd := 3, sqpoll := false
      sq := ⟨.two, true, 0, 0, fun _ => 0, fun _ => {}⟩
      cq := ⟨.four, 0, 0, fun _ => ⟨0, 0⟩⟩ })

def linuxAioStart : linuxAio.State :=
  (⟨fun p => { iocb := { aioData := p, aioLioOpcode := .fsync }, refcnt := 2 }, fun _ => 1⟩, [])

theorem uringStart_init : Loop.Init (quiet uringStart) := by
  refine ⟨⟨?_, rfl⟩, rfl, rfl, rfl⟩
  show ((0 : UInt32) - 0).toNat ≤ 2 ^ 2
  decide

theorem no_completion_stranded_late :
    (∃ s, (Loop.system uring).exec (quiet uringStart) (lateEvent (B := uring) ⟨16, 1⟩) = some s ∧
      s.undelivered.isEmpty = false ∧ s.Attended) ∧
    ∃ s, (Loop.system linuxAio).exec (quiet linuxAioStart)
        (lateEvent (B := linuxAio) ⟨16, 1⟩) = some s ∧
      s.undelivered.isEmpty = false ∧ s.Attended := by
  have huring : ((Loop.system uring).exec (quiet uringStart) (lateEvent (B := uring) ⟨16, 1⟩)).any
      (fun s => !s.undelivered.isEmpty) = true := by decide +kernel
  have haio : ((Loop.system linuxAio).exec (quiet linuxAioStart)
      (lateEvent (B := linuxAio) ⟨16, 1⟩)).any (fun s => !s.undelivered.isEmpty) = true := by
    decide +kernel
  have hmeets : (Loop.system uring).Meets (fun s a => ¬s.Overflows a) (quiet uringStart)
      (lateEvent (B := uring) ⟨16, 1⟩) := by decide +kernel
  obtain ⟨s, hs, hleft⟩ := (Option.any_eq_true _ _).mp huring
  obtain ⟨t, ht, htleft⟩ := (Option.any_eq_true _ _).mp haio
  refine ⟨⟨s, hs, by simpa using hleft, ?_⟩, t, ht, by simpa using htleft, ?_⟩
  · exact (no_completion_stranded s t).1 (.exec (.init uringStart_init) hmeets hs)
  · exact (no_completion_stranded s t).2 (.exec (.init ⟨trivial, rfl, rfl, rfl⟩) ht)

def uringUndelivered (s : Loop uring) : List (Uring.OpPtr × Int32) := s.undelivered

/-- Five completions for four slots, all signalled; `_on_read_event` then runs to its end. -/
def fifthKeptRun : List (Loop.Action uring) :=
  [.post ⟨16, 0⟩ false, .post ⟨32, 0⟩ false, .post ⟨48, 0⟩ false, .post ⟨64, 0⟩ false,
    .post ⟨80, 0⟩ false, .signal [], .readEvent, .poll, .processEvents, .scan false, .deliver,
    .deliver, .deliver, .deliver, .ret, .processEvents, .scan false, .ret]

theorem completion_stranded_fifth :
    (∃ s, (Loop.system uring).Reachable s ∧ uringUndelivered s = [(80, 0)] ∧
      s.event.value = 0 ∧ s.event.pending.isEmpty = true ∧ ¬s.handler.PastPoll) ∧
    ¬∀ s, (Loop.system uring).Reachable s → s.Attended := by
  have hrun : ((Loop.system uring).exec (quiet uringStart) fifthKeptRun).any (fun s =>
      decide (uringUndelivered s = [(80, 0)] ∧ s.event.value = 0 ∧
        s.event.pending.isEmpty = true ∧ ¬s.handler.PastPoll)) = true := by
    decide +kernel
  obtain ⟨s, hs, hstate⟩ := (Option.any_eq_true _ _).mp hrun
  have hreach : (Loop.system uring).Reachable s := .exec (.init uringStart_init) hs
  obtain ⟨hleft, hvalue, hpending, hidle⟩ := of_decide_eq_true hstate
  refine ⟨⟨s, hreach, hleft, hvalue, hpending, hidle⟩, fun hall => ?_⟩
  rcases hall s hreach with hpast | hpos | hsub
  · exact hidle hpast
  · rw [hvalue] at hpos
    exact absurd hpos (Nat.lt_irrefl 0)
  · have hlen : (uringUndelivered s).length ≤ 0 := by
      rw [List.isEmpty_iff.mp hpending] at hsub
      exact hsub.length_le
    rw [hleft] at hlen
    exact absurd hlen (by decide)

end Caio.Asyncio
