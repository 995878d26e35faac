import Caio.LinuxAio.Operation

namespace Caio.LinuxAio

structure IoEvent where
  data : OpPtr
  res : Int64
deriving DecidableEq, Repr

def eintr : Int32 := 4

def maxEventsRequest : UInt32 := (1 : UInt32) <<< 20

/-- The stores for an event and `Py_CLEAR(op->context)`. -/
def Heap.settle (h : Heap) (ev : IoEvent) : Heap :=
  (h.xdecrefCtx (h.ops ev.data).context).modify ev.data (·.complete ev.res)

def Heap.incref (h : Heap) (p : OpPtr) : Heap :=
  h.modify p fun op => { op with refcnt := op.refcnt + 1 }

def Heap.decref (h : Heap) (p : OpPtr) : Heap :=
  h.modify p fun op => { op with refcnt := op.refcnt - 1 }

/-- The body of the loop over the events, whose callback comes in between. -/
def Heap.finalise (h : Heap) (ev : IoEvent) : Heap := (h.settle ev).decref ev.data

/-- `io_getevents` with a minimum of 0 and a timeout of 0: what is there, up to `max` events. The
kernel reports an interruption only when it has no event to return. -/
def ioGetevents (ring : List IoEvent) (max : ℕ) (signalPending : Bool) :
    Except Int32 (List IoEvent) :=
  if signalPending ∧ ring.take max = [] then .error eintr else .ok (ring.take max)

/-- `process_events(max_requests)` up to the loop over the events: these, what stays in the kernel,
and what the call will return. -/
def processEvents (ring : List IoEvent) (maxRequests : UInt32) (signalPending : Bool) :
    List IoEvent × List IoEvent × Except PyErr ℕ :=
  let max := if maxRequests = 0 then evMaxRequestsDefault else maxRequests
  if maxEventsRequest < max then
    ([], ring, .error (.overflowError ("max_requests (" ++ toString max ++
      ") exceeds the maximum allowed (" ++ toString maxEventsRequest ++ ")")))
  else
    match ioGetevents ring max.toNat signalPending with
    | .error errno => ([], ring, .error (.systemError errno))
    | .ok events => (events, ring.drop max.toNat, .ok events.length)

theorem ioGetevents_ok {ring events : List IoEvent} {max : ℕ} {b : Bool}
    (h : ioGetevents ring max b = .ok events) : events = ring.take max := by
  unfold ioGetevents at h
  split at h
  · cases h
  · cases h
    rfl

theorem ioGetevents_error {ring : List IoEvent} {max : ℕ} {b : Bool} {errno : Int32}
    (h : ioGetevents ring max b = .error errno) : ring.take max = [] := by
  unfold ioGetevents at h
  split at h
  case isTrue hb => exact hb.2
  case isFalse => cases h

theorem processEvents_split (ring : List IoEvent) (maxRequests : UInt32) (b : Bool) :
    ring = (processEvents ring maxRequests b).1 ++ (processEvents ring maxRequests b).2.1 := by
  simp only [processEvents]
  generalize (if maxRequests = 0 then evMaxRequestsDefault else maxRequests) = max
  split
  case isTrue => rfl
  case isFalse =>
    split
    case h_1 => rfl
    case h_2 events hio =>
      rw [ioGetevents_ok hio]
      exact (List.take_append_drop ..).symm

theorem processEvents_default {ring : List IoEvent} {b : Bool}
    (h : ∀ n, (processEvents ring 0 b).2.2 ≠ .ok (n + 1)) : ring = [] := by
  have htake : ring.take evMaxRequestsDefault.toNat = [] → ring = [] := by
    intro hnil
    exact (List.take_eq_nil_iff.mp hnil).resolve_left (by decide)
  simp only [processEvents] at h
  rw [if_neg (by decide)] at h
  split at h
  case h_1 hio => exact htake (ioGetevents_error hio)
  case h_2 events hio =>
    refine htake ((ioGetevents_ok hio).symm.trans (List.eq_nil_of_length_eq_zero ?_))
    by_contra hne
    exact h (events.length - 1) (by rw [Nat.sub_add_cancel (Nat.pos_of_ne_zero hne)])

end Caio.LinuxAio
