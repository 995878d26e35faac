import Mathlib.Algebra.Group.Nat.Defs
import Mathlib.Tactic.SplitIfs
import Caio.Uring.Operation
import Caio.LinuxAio.Value
import Caio.ThreadAio.Operation
import Caio.PythonAio.Operation

namespace Caio.Agreement

inductive Kind
  | read (nbytes : ℕ)
  | write (payload : List UInt8)
  | fsync
  | fdsync
deriving DecidableEq, Repr

/-- The arguments of a constructor. -/
structure Request where
  kind : Kind
  fd : UInt32
  offset : Int64

def Request.length (req : Request) : ℕ :=
  match req.kind with
  | .read nbytes => nbytes
  | .write payload => payload.length
  | .fsync | .fdsync => 0

/-- What the system makes of a request. -/
inductive Outcome
  /-- `r` bytes are transferred: these. -/
  | success (r : ℕ) (content : List UInt8)
  | failure (errno : ℕ)

def Request.Allows (req : Request) : Outcome → Prop
  | .success r content => r ≤ req.length ∧ content.length = r
  | .failure errno => 1 ≤ errno ∧ errno ≤ 133

inductive Value
  | none
  | bytes (content : List UInt8)
  | int (n : Int)
deriving DecidableEq, Repr

/-- The value that a completed request has, and no value for a failed one. -/
def answer (req : Request) : Outcome → Except Unit Value
  | .failure _ => .error ()
  | .success r content =>
    match req.kind with
    | .read _ => .ok (.bytes content)
    | .write _ => .ok (.int r)
    | .fsync | .fdsync => .ok .none

def outcomeOf : Except PyErr Value → Except Unit Value
  | .error _ => .error ()
  | .ok value => .ok value

def transfer (nbytes : ℕ) : Outcome → List UInt8
  | .success r content => content ++ List.replicate (nbytes - r) 0
  | .failure _ => List.replicate nbytes 0

/-- What `PyMem_Calloc` and `PyBytes_FromStringAndSize` return for any size. -/
abbrev Allocation := { addr : UInt64 // addr ≠ 0 }

/-- What is in the buffer once the request is completed. -/
def bufferOf (req : Request) (out : Outcome) : List UInt8 :=
  match req.kind with
  | .read nbytes => transfer nbytes out
  | .write payload => payload
  | .fsync | .fdsync => []

/-- What lies at an address: the buffer at its own, and nothing anywhere else. -/
def lying (buf : Allocation) (bytes : List UInt8) (addr : UInt64) : List UInt8 :=
  if addr = buf then bytes else []

@[simp] theorem lying_self (buf : Allocation) (bytes : List UInt8) : lying buf bytes buf = bytes :=
  if_pos rfl

def memory (req : Request) (out : Outcome) (buf : Allocation) : UInt64 → List UInt8 :=
  lying buf (bufferOf req out)

def uringOp (req : Request) (buf : Allocation) : Uring.AIOOperation :=
  match req.kind with
  | .read nbytes => .read nbytes req.fd req.offset.toUInt64 buf
  | .write payload => .write buf payload.length req.fd req.offset.toUInt64
  | .fsync => .fsync req.fd
  | .fdsync => .fdsync req.fd

def uringRes : Outcome → Int32
  | .success r _ => Int32.ofNat r
  | .failure errno => Int32.ofInt (-errno)

def uringValue (memory : BytesId → List UInt8) : Uring.AIOOperation.Value → Value
  | .none => .none
  | .bytes b => .bytes (memory b)
  | .newBytes content => .bytes content
  | .int n => .int n

def uringGet (memory : UInt64 → List UInt8) (op : Uring.AIOOperation) : Except PyErr Value :=
  (op.getValue memory).map (uringValue memory)

def uringDone (req : Request) (out : Outcome) (buf : Allocation) : Uring.AIOOperation :=
  ({ uringOp req buf with inProgress := true }).complete (uringRes out)

def uring (req : Request) (out : Outcome) (buf : Allocation) : Except Unit Value :=
  outcomeOf (uringGet (memory req out buf) (uringDone req out buf))

def linuxAioOp (req : Request) (self : LinuxAio.OpPtr) (buf : Allocation) : LinuxAio.AIOOperation :=
  match req.kind with
  | .read nbytes => .read self (UInt64.ofNat nbytes) req.fd req.offset buf
  | .write payload => .write self buf (UInt64.ofNat payload.length) req.fd req.offset
  | .fsync => .fsync self req.fd
  | .fdsync => .fdsync self req.fd

def linuxAioRes : Outcome → Int64
  | .success r _ => Int64.ofNat r
  | .failure errno => Int64.ofInt (-errno)

def linuxAioValue : LinuxAio.AIOOperation.Value → Value
  | .none => .none
  | .newBytes content => .bytes content
  | .int n => .int n

/-- The content of `self->buffer`, which is `aio_buf` too. -/
def linuxAioBuffer (memory : UInt64 → List UInt8) (op : LinuxAio.AIOOperation) :
    Option (List UInt8) :=
  if op.iocb.aioBuf = 0 then none else some (memory op.iocb.aioBuf)

def linuxAioGet (memory : UInt64 → List UInt8) (op : LinuxAio.AIOOperation) : Except PyErr Value :=
  (op.getValue (linuxAioBuffer memory op)).map linuxAioValue

def linuxAioDone (req : Request) (out : Outcome) (self : LinuxAio.OpPtr) (buf : Allocation) :
    LinuxAio.AIOOperation :=
  ({ linuxAioOp req self buf with inProgress := true }).complete (linuxAioRes out)

def linuxAio (req : Request) (out : Outcome) (self : LinuxAio.OpPtr) (buf : Allocation) :
    Except Unit Value :=
  outcomeOf (linuxAioGet (memory req out buf) (linuxAioDone req out self buf))

def threadAioOp (req : Request) (buf : Allocation) (view : BytesId) : ThreadAio.AIOOperation :=
  match req.kind with
  | .read nbytes => .read nbytes req.fd req.offset buf view
  | .write payload => .write buf payload.length req.fd req.offset
  | .fsync => .fsync req.fd
  | .fdsync => .fdsync req.fd

/-- What the system call returns, and `errno`. -/
def threadAioRes : Outcome → Int32 × Int32
  | .success r _ => (Int32.ofNat r, 0)
  | .failure errno => (-1, Int32.ofNat errno)

def threadAioValue : ThreadAio.AIOOperation.Value → Value
  | .none => .none
  | .newBytes content => .bytes content
  | .int n => .int n

def threadAioGet (memory : UInt64 → List UInt8) (op : ThreadAio.AIOOperation) :
    Except PyErr Value :=
  (op.getValue memory).map threadAioValue

def threadAioDone (req : Request) (out : Outcome) (buf : Allocation) (view : BytesId) :
    ThreadAio.AIOOperation :=
  ({ threadAioOp req buf view with inProgress := true }).complete (threadAioRes out).1
    (threadAioRes out).2

def threadAio (req : Request) (out : Outcome) (buf : Allocation) (view : BytesId) :
    Except Unit Value :=
  outcomeOf (threadAioGet (memory req out buf) (threadAioDone req out buf view))

def pythonAioOp (req : Request) : PythonAio.Operation :=
  match req.kind with
  | .read nbytes => .read nbytes req.fd.toNat req.offset.toInt
  | .write payload => .write payload req.fd.toNat req.offset.toInt
  | .fsync => .fsync req.fd.toNat
  | .fdsync => .fdsync req.fd.toNat

/-- What the function of `os` returns or raises. -/
def pythonAioReturned (req : Request) : Outcome → Except PyErr PythonAio.Operation.Returned
  | .failure errno => .error (.osErrno (Int32.ofNat errno))
  | .success r content =>
    match req.kind with
    | .read _ => .ok (.data content)
    | .write _ => .ok (.count r)
    | .fsync | .fdsync => .ok .nothing

def pythonAioValue : PythonAio.Value → Value
  | .none => .none
  | .bytes content => .bytes content
  | .int n => .int n

def pythonAioGet (op : PythonAio.Operation) : Except PyErr Value := op.getValue.map pythonAioValue

def pythonAioDone (req : Request) (out : Outcome) : PythonAio.Operation :=
  ({ pythonAioOp req with inProgress := true }).complete (pythonAioReturned req out)

def pythonAio (req : Request) (out : Outcome) : Except Unit Value :=
  outcomeOf (pythonAioGet (pythonAioDone req out))

variable {req : Request} {out : Outcome}

theorem pythonAio_eq (req : Request) (out : Outcome) : pythonAio req out = answer req out := by
  obtain ⟨kind, fd, offset⟩ := req
  cases out with
  | failure errno => cases kind <;> rfl
  | success r content => cases kind <;> rfl

theorem transfer_length {nbytes r : ℕ} {content : List UInt8} (hr : r ≤ nbytes)
    (hlen : content.length = r) : (transfer nbytes (.success r content)).length = nbytes := by
  rw [transfer, List.length_append, List.length_replicate, hlen]
  omega

theorem transfer_take {r : ℕ} {content : List UInt8} (nbytes : ℕ) (hlen : content.length = r) :
    (transfer nbytes (.success r content)).take r = content := by
  rw [transfer, ← hlen, List.take_left]

theorem int32_ofNat {r : ℕ} (hr : r < 2 ^ 31) :
    (Int32.ofNat r).toInt = r ∧ ¬Int32.ofNat r < 0 := by
  have hres : (Int32.ofNat r).toInt = r := Int32.toInt_ofNat_of_lt hr
  refine ⟨hres, ?_⟩
  rw [Int32.lt_iff_toInt_lt, hres]
  exact Int.not_lt.mpr (Int.natCast_nonneg r)

theorem int32_neg {errno : ℕ} (hpos : 1 ≤ errno) (hmax : errno ≤ 133) :
    Int32.ofInt (-errno) < 0 ∧ -Int32.ofInt (-errno) ≠ 0 := by
  have hres : (Int32.ofInt (-errno)).toInt = -errno :=
    Int32.toInt_ofInt_of_le (by omega) (by omega)
  have hlt : Int32.ofInt (-errno) < 0 := by
    rw [Int32.lt_iff_toInt_lt, hres]
    exact Int.neg_neg_of_pos (by omega)
  refine ⟨hlt, fun hzero => ?_⟩
  have hzero : Int32.ofInt (-errno) = 0 := by simpa using congrArg (- ·) hzero
  rw [hzero] at hlt
  exact absurd hlt (by decide)

theorem uring_eq (hlen : req.length < 2 ^ 31) (hout : req.Allows out) (buf : Allocation) :
    uring req out buf = answer req out := by
  obtain ⟨kind, fd, offset⟩ := req
  cases out with
  | failure errno =>
    obtain ⟨hlt, hne⟩ := int32_neg hout.1 hout.2
    simp only [uring, uringGet, uringDone, uringRes, Uring.AIOOperation.getValue,
      Uring.AIOOperation.complete, hlt, if_true, Bool.not_true, Bool.and_false, Bool.false_eq_true,
      if_false, ne_eq, hne, not_false_eq_true]
    rfl
  | success r content =>
    obtain ⟨hr, hcontent⟩ := hout
    obtain ⟨hres, hge⟩ := int32_ofNat (Nat.lt_of_le_of_lt hr hlen)
    cases kind with
    | read nbytes =>
      have htake := transfer_take nbytes hcontent
      have hsize : (transfer nbytes (.success r content)).length = nbytes :=
        transfer_length hr hcontent
      simp only [uring, uringGet, uringDone, uringOp, uringRes, Uring.AIOOperation.getValue,
        Uring.AIOOperation.complete, Uring.AIOOperation.read, hge, hres, memory, bufferOf,
        lying_self, if_false,
        Bool.not_true, Bool.and_false, Bool.false_eq_true, ne_eq, not_true_eq_false, if_true,
        Int.toNat_natCast, htake, hsize, Int.natCast_inj]
      -- a full transfer hands back the buffer itself
      by_cases hfull : r = nbytes
      · have hwhole : transfer nbytes (.success r content) = content := by
          rw [List.take_of_length_le (by omega)] at htake
          exact htake
        rw [if_pos hfull]
        exact congrArg (fun bytes => Except.ok (Value.bytes bytes))
          ((lying_self buf _).trans hwhole)
      · rw [if_neg hfull]
        rfl
    | write payload =>
      simp only [uring, uringGet, uringDone, uringOp, uringRes, Uring.AIOOperation.getValue,
        Uring.AIOOperation.complete, Uring.AIOOperation.write, hge, if_false, Bool.not_true,
        Bool.and_false, Bool.false_eq_true, ne_eq, not_true_eq_false]
      exact congrArg (fun n => Except.ok (Value.int n)) hres
    | fsync | fdsync =>
      simp only [uring, uringGet, uringDone, uringOp, uringRes, Uring.AIOOperation.getValue,
        Uring.AIOOperation.complete, Uring.AIOOperation.fsync, Uring.AIOOperation.fdsync, hge,
        if_false, Bool.not_true, Bool.and_false, Bool.false_eq_true, ne_eq, not_true_eq_false]
      rfl

theorem int64_ofNat {r : ℕ} (hr : r < 2 ^ 31) :
    0 ≤ Int64.ofNat r ∧ (Int64.ofNat r).toUInt64.toNat = r ∧
      (Int64.ofNat r).toUInt64.toInt64.toInt = r := by
  have hres : (Int64.ofNat r).toInt = r := Int64.toInt_ofNat_of_lt (by omega)
  refine ⟨?_, ?_, ?_⟩
  · rw [Int64.le_iff_toInt_le, hres]
    exact Int.natCast_nonneg r
  · rw [Int64.toUInt64_ofNat', UInt64.toNat_ofNat']
    exact Nat.mod_eq_of_lt (by omega)
  · rw [Int64.toInt64_toUInt64, hres]

theorem int64_neg {errno : ℕ} (hpos : 1 ≤ errno) (hmax : errno ≤ 133) :
    ¬0 ≤ Int64.ofInt (-errno) ∧ (-Int64.ofInt (-errno)).toInt32 ≠ 0 := by
  have hres : (Int64.ofInt (-errno)).toInt = -errno :=
    Int64.toInt_ofInt_of_le (by omega) (by omega)
  refine ⟨?_, ?_⟩
  · rw [Int64.le_iff_toInt_le, hres]
    exact Int.not_le.mpr (Int.neg_neg_of_pos (by omega))
  · rw [Int64.toInt32_neg, Int64.toInt32_ofInt]
    exact (int32_neg hpos hmax).2

theorem linuxAio_eq (hlen : req.length < 2 ^ 31) (hout : req.Allows out)
    (self : LinuxAio.OpPtr) (buf : Allocation) : linuxAio req out self buf = answer req out := by
  obtain ⟨kind, fd, offset⟩ := req
  have hnonnull := buf.property
  cases out with
  | failure errno =>
    obtain ⟨hlt, hne⟩ := int64_neg hout.1 hout.2
    simp only [linuxAio, linuxAioGet, linuxAioDone, linuxAioRes, LinuxAio.AIOOperation.getValue,
      LinuxAio.AIOOperation.complete, hlt, if_true, Bool.not_true, Bool.and_false,
      Bool.false_eq_true, if_false, ne_eq, hne, not_false_eq_true]
    rfl
  | success r content =>
    obtain ⟨hr, hcontent⟩ := hout
    obtain ⟨hge, hnat, hint⟩ := int64_ofNat (Nat.lt_of_le_of_lt hr hlen)
    cases kind with
    | read nbytes =>
      have htake := transfer_take nbytes hcontent
      simp only [linuxAio, linuxAioGet, linuxAioDone, linuxAioOp, linuxAioRes, linuxAioBuffer,
        memory, bufferOf, lying_self, hnonnull, LinuxAio.AIOOperation.getValue,
        LinuxAio.AIOOperation.complete, LinuxAio.AIOOperation.read, hge, if_true, hnat, htake,
        Bool.not_true, Bool.and_false, Bool.false_eq_true, if_false, ne_eq, not_true_eq_false]
      rfl
    | write payload =>
      simp only [linuxAio, linuxAioGet, linuxAioDone, linuxAioOp, linuxAioRes,
        LinuxAio.AIOOperation.getValue, LinuxAio.AIOOperation.complete, LinuxAio.AIOOperation.write,
        hge, if_true, hint, Bool.not_true, Bool.and_false, Bool.false_eq_true, if_false, ne_eq,
        not_true_eq_false]
      rfl
    | fsync | fdsync =>
      simp only [linuxAio, linuxAioGet, linuxAioDone, linuxAioOp, linuxAioRes,
        LinuxAio.AIOOperation.getValue, LinuxAio.AIOOperation.complete, LinuxAio.AIOOperation.fsync,
        LinuxAio.AIOOperation.fdsync, hge, if_true, Bool.not_true, Bool.and_false,
        Bool.false_eq_true, if_false, ne_eq, not_true_eq_false]
      rfl

theorem uint8_errno {errno : ℕ} (hpos : 1 ≤ errno) (hmax : errno ≤ 133) :
    UInt8.ofInt (Int32.ofNat errno).toInt ≠ 0 := by
  have hres : (Int32.ofNat errno).toInt = errno := Int32.toInt_ofNat_of_lt (by omega)
  intro hzero
  have hzero := congrArg UInt8.toNat hzero
  rw [hres, UInt8.ofInt, UInt8.toNat_ofNat'] at hzero
  have hzero : ((errno : Int) % 2 ^ 8).toNat % 2 ^ 8 = 0 := hzero
  omega

theorem threadAio_eq (hlen : req.length < 2 ^ 31) (hout : req.Allows out) (buf : Allocation)
    (view : BytesId) : threadAio req out buf view = answer req out := by
  obtain ⟨kind, fd, offset⟩ := req
  have hnonnull := buf.property
  cases out with
  | failure errno =>
    have hne := uint8_errno hout.1 hout.2
    have hlt : (-1 : Int32) < 0 := by decide
    simp only [threadAio, threadAioGet, threadAioDone, threadAioRes,
      ThreadAio.AIOOperation.getValue, ThreadAio.AIOOperation.complete,
      ThreadAio.AIOOperation.publish, ThreadAio.AIOOperation.record, ThreadAio.AIOOperation.take,
      hlt, if_true, Bool.not_true, Bool.and_false, Bool.false_eq_true, if_false, ne_eq, hne,
      not_false_eq_true]
    rfl
  | success r content =>
    obtain ⟨hr, hcontent⟩ := hout
    obtain ⟨hres, hge⟩ := int32_ofNat (Nat.lt_of_le_of_lt hr hlen)
    cases kind with
    | read nbytes =>
      have htake := transfer_take nbytes hcontent
      simp only [threadAio, threadAioGet, threadAioDone, threadAioOp, threadAioRes, memory,
        bufferOf, lying_self, ThreadAio.AIOOperation.getValue, ThreadAio.AIOOperation.complete,
        ThreadAio.AIOOperation.publish, ThreadAio.AIOOperation.record, ThreadAio.AIOOperation.take,
        ThreadAio.AIOOperation.read, hge, hres, hnonnull, if_true, htake, Int.toNat_natCast,
        Bool.not_true, Bool.and_false, Bool.false_eq_true, if_false, ne_eq, not_true_eq_false]
      rfl
    | write payload =>
      simp only [threadAio, threadAioGet, threadAioDone, threadAioOp, threadAioRes,
        ThreadAio.AIOOperation.getValue, ThreadAio.AIOOperation.complete,
        ThreadAio.AIOOperation.publish, ThreadAio.AIOOperation.record, ThreadAio.AIOOperation.take,
        ThreadAio.AIOOperation.write, hge, hres, Bool.not_true, Bool.and_false, Bool.false_eq_true,
        if_false, ne_eq, not_true_eq_false]
      rfl
    | fsync | fdsync =>
      simp only [threadAio, threadAioGet, threadAioDone, threadAioOp, threadAioRes,
        ThreadAio.AIOOperation.getValue, ThreadAio.AIOOperation.complete,
        ThreadAio.AIOOperation.publish, ThreadAio.AIOOperation.record, ThreadAio.AIOOperation.take,
        ThreadAio.AIOOperation.fsync, ThreadAio.AIOOperation.fdsync, hge, Bool.not_true,
        Bool.and_false, Bool.false_eq_true, if_false, ne_eq, not_true_eq_false]
      rfl

/-- The four backends give the same answer: the transferred bytes, their number or `None`, and an
exception exactly for a failure. -/
theorem backends_agree (req : Request) (out : Outcome) (hlen : req.length < 2 ^ 31)
    (hout : req.Allows out) (self : LinuxAio.OpPtr) (buf : Allocation) (view : BytesId) :
    uring req out buf = answer req out ∧ linuxAio req out self buf = answer req out ∧
      threadAio req out buf view = answer req out ∧ pythonAio req out = answer req out :=
  ⟨uring_eq hlen hout buf, linuxAio_eq hlen hout self buf, threadAio_eq hlen hout buf view,
    pythonAio_eq req out⟩

theorem backends_agree_short :
    uring ⟨.read 4, 3, 0⟩ (.success 2 [7, 8]) ⟨1, by decide⟩ = .ok (.bytes [7, 8]) ∧
      linuxAio ⟨.read 4, 3, 0⟩ (.success 2 [7, 8]) 9 ⟨1, by decide⟩ = .ok (.bytes [7, 8]) ∧
      threadAio ⟨.read 4, 3, 0⟩ (.success 2 [7, 8]) ⟨1, by decide⟩ 2 = .ok (.bytes [7, 8]) ∧
      pythonAio ⟨.read 4, 3, 0⟩ (.success 2 [7, 8]) = .ok (.bytes [7, 8]) :=
  backends_agree ⟨.read 4, 3, 0⟩ (.success 2 [7, 8]) (by decide) ⟨by decide, rfl⟩ 9 ⟨1, by decide⟩ 2

end Caio.Agreement
