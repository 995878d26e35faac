import Mathlib.Data.UInt
import Mathlib.Logic.Function.Basic
import Caio.Agreement
import Caio.Implementation.Select
import Caio.Lib.OpenFile
import Caio.Lib.Width

namespace Caio.Session

open Agreement
open Implementation (Backend)

/-- What the kernel is asked to do. -/
structure Call where
  kind : Kind
  /-- Where a read puts its bytes, unless it hands them back. -/
  into : Option UInt64 := none
  fd : Int
  offset : Int
deriving DecidableEq, Repr

/-- The arguments of the constructor, as a call, for a read into `buf`; `fsync` and `fdsync` have no
offset. -/
def Request.call (req : Request) (buf : Option UInt64) : Call where
  kind := req.kind
  into :=
    match req.kind with
    | .read _ => buf
    | .write _ | .fsync | .fdsync => none
  fd := req.fd.toNat
  offset :=
    match req.kind with
    | .read _ | .write _ => req.offset.toInt
    | .fsync | .fdsync => 0

/-- Where an Operation and its data lie, and the eventfd of its Context. -/
structure Place where
  self : UInt64
  buf : Allocation
  view : BytesId
  eventfd : Int32

/-- The buffer before the call: zeros for a read, and the payload of a write. -/
def before (req : Request) (buf : Allocation) : UInt64 → List UInt8 :=
  lying buf
    (match req.kind with
    | .read nbytes => List.replicate nbytes 0
    | .write payload => payload
    | .fsync | .fdsync => [])

/-- The bytes of a read lie where the call says, and nowhere else. -/
def Call.landed (call : Call) (out : Outcome) (memory : UInt64 → List UInt8) :
    UInt64 → List UInt8 :=
  match call.kind, call.into, out with
  | .read _, some addr, .success _ data =>
    Function.update memory addr (data ++ (memory addr).drop data.length)
  | _, _, _ => memory

def uringCall (memory : UInt64 → List UInt8) (sqe : Uring.Sqe) : Option Call :=
  match sqe.opcode with
  | .read => some ⟨.read sqe.len.toNat, some sqe.addr, sqe.fd.toInt, sqe.off.toInt64.toInt⟩
  | .write =>
    some ⟨.write ((memory sqe.addr).take sqe.len.toNat), none, sqe.fd.toInt,
      sqe.off.toInt64.toInt⟩
  | .fsync =>
    some ⟨if sqe.fsyncFlags = Uring.fsyncDatasync then .fdsync else .fsync, none, sqe.fd.toInt,
      sqe.off.toInt64.toInt⟩
  | .nop | .asyncCancel => none

def linuxAioCall (memory : UInt64 → List UInt8) (iocb : LinuxAio.Iocb) : Option Call :=
  match iocb.aioLioOpcode with
  | .pread =>
    some ⟨.read iocb.aioNbytes.toNat, some iocb.aioBuf, iocb.aioFildes.toNat, iocb.aioOffset.toInt⟩
  | .pwrite =>
    some ⟨.write ((memory iocb.aioBuf).take iocb.aioNbytes.toNat), none, iocb.aioFildes.toNat,
      iocb.aioOffset.toInt⟩
  | .fsync => some ⟨.fsync, none, iocb.aioFildes.toNat, iocb.aioOffset.toInt⟩
  | .fdsync => some ⟨.fdsync, none, iocb.aioFildes.toNat, iocb.aioOffset.toInt⟩
  | .noop => none

/-- The `int` arguments of the functions of the C library; a count becomes a `size_t`. -/
def threadAioCall (memory : UInt64 → List UInt8) : ThreadAio.AIOOperation.Syscall → Call
  | .pread fd buf count offset =>
    ⟨.read count.toInt64.toUInt64.toNat, some buf, fd.toInt32.toInt, offset.toInt⟩
  | .pwrite fd buf count offset =>
    ⟨.write ((memory buf).take count.toInt64.toUInt64.toNat), none, fd.toInt32.toInt, offset.toInt⟩
  | .fsync fd => ⟨.fsync, none, fd.toInt32.toInt, 0⟩
  | .fdatasync fd => ⟨.fdsync, none, fd.toInt32.toInt, 0⟩

/-- The function of `os` that the handler calls. -/
def pythonAioCall (op : PythonAio.Operation) : Option Call :=
  match op.opcode with
  | .read => some ⟨.read op.nbytes.toNat, none, op.fileno, op.offset⟩
  | .write => some ⟨.write op.buffer, none, op.fileno, op.offset⟩
  | .fsync => some ⟨.fsync, none, op.fileno, 0⟩
  | .fdsync => some ⟨.fdsync, none, op.fileno, 0⟩
  | .noop => none

def ask (req : Request) (place : Place) : Backend → Option Call
  | .uring =>
    (Uring.submitSqe place.self (uringOp req place.buf)).bind (uringCall (before req place.buf))
  | .linux =>
    linuxAioCall (before req place.buf)
      ((linuxAioOp req place.self place.buf).notify place.eventfd).iocb
  | .thread =>
    (threadAioOp req place.buf place.view).syscall.map (threadAioCall (before req place.buf))
  | .python => pythonAioCall (pythonAioOp req)

/-- What `get_value()` says of the outcome, by what lies where. -/
def value (memory : UInt64 → List UInt8) (req : Request) (out : Outcome) (place : Place) :
    Backend → Except Unit Value
  | .uring => outcomeOf (uringGet memory (uringDone req out place.buf))
  | .linux => outcomeOf (linuxAioGet memory (linuxAioDone req out place.self place.buf))
  | .thread => outcomeOf (threadAioGet memory (threadAioDone req out place.buf place.view))
  | .python => outcomeOf (pythonAioGet (pythonAioDone req out))

/-- The buffer that a backend has the kernel fill; `os.pread` hands the bytes back. -/
def Place.target (place : Place) : Backend → Option UInt64
  | .uring | .linux | .thread => some place.buf
  | .python => none

variable {req : Request} {place : Place}

theorem toInt32_toInt {fd : UInt32} (h : fd.toNat < 2 ^ 31) : fd.toInt32.toInt = fd.toNat := by
  have hof : fd.toInt32 = Int32.ofNat fd.toNat := by
    rw [← UInt32.toInt32_ofNat', UInt32.ofNat_toNat]
  rw [hof, Int32.toInt_ofNat_of_lt h]

theorem before_write {payload : List UInt8} {fd : UInt32} {offset : Int64} (buf : Allocation) :
    before ⟨.write payload, fd, offset⟩ buf buf = payload := lying_self buf payload

theorem uring_ask (hfd : req.fd.toNat < 2 ^ 31) (hlen : req.length < 2 ^ 31) :
    ask req place .uring = some (Request.call req (some place.buf)) := by
  obtain ⟨kind, fd, offset⟩ := req
  replace hfd : fd.toInt32.toInt = fd.toNat := toInt32_toInt hfd
  -- below 2 GiB the 32-bit length of the SQE is the whole length
  have hbytes {n : ℕ} (hn : n < 2 ^ 31) : (UInt32.ofInt n).toNat = n := by
    rw [Width.toUInt32_toNat]
    omega
  cases kind with
  | read n =>
    have hlen : n < 2 ^ 31 := hlen
    simp only [ask, uringOp, Uring.AIOOperation.read, Uring.submitSqe, Uring.blankSqe, uringCall,
      Option.bind_some, hfd, hbytes hlen, Int64.toInt64_toUInt64]
    rfl
  | write payload =>
    have hlen : payload.length < 2 ^ 31 := hlen
    simp only [ask, uringOp, Uring.AIOOperation.write, Uring.submitSqe, Uring.blankSqe, uringCall,
      Option.bind_some, hfd, hbytes hlen, Int64.toInt64_toUInt64, before_write, List.take_length]
    rfl
  | fsync | fdsync =>
    simp only [ask, uringOp, Uring.AIOOperation.fsync, Uring.AIOOperation.fdsync, Uring.submitSqe,
      Uring.blankSqe, uringCall, Option.bind_some, hfd]
    rfl

theorem linux_ask (hlen : req.length < 2 ^ 31) :
    ask req place .linux = some (Request.call req (some place.buf)) := by
  obtain ⟨kind, fd, offset⟩ := req
  have hbytes {n : ℕ} (hn : n < 2 ^ 31) : (UInt64.ofNat n).toNat = n :=
    UInt64.toNat_ofNat_of_lt' (Nat.lt_trans hn (by decide))
  cases kind with
  | read n =>
    have hlen : n < 2 ^ 31 := hlen
    simp only [ask, linuxAioOp, LinuxAio.AIOOperation.read, LinuxAio.AIOOperation.notify,
      linuxAioCall, hbytes hlen]
    rfl
  | write payload =>
    have hlen : payload.length < 2 ^ 31 := hlen
    simp only [ask, linuxAioOp, LinuxAio.AIOOperation.write, LinuxAio.AIOOperation.notify,
      linuxAioCall, hbytes hlen, before_write, List.take_length]
    rfl
  | fsync | fdsync => rfl

theorem thread_ask (hfd : req.fd.toNat < 2 ^ 31) (hlen : req.length < 2 ^ 31) :
    ask req place .thread = some (Request.call req (some place.buf)) := by
  obtain ⟨kind, fd, offset⟩ := req
  replace hfd : fd.toInt32.toInt = fd.toNat := toInt32_toInt hfd
  -- the `int` of the count is not negative, so the `size_t` is the same number
  have hbytes {n : ℕ} (hn : n < 2 ^ 31) : (Int32.ofInt n).toInt64.toUInt64.toNat = n :=
    (Width.sizeOfInt_toNat_eq_iff (by omega)).mpr hn
  cases kind with
  | read n =>
    have hlen : n < 2 ^ 31 := hlen
    simp only [ask, threadAioOp, ThreadAio.AIOOperation.read, ThreadAio.AIOOperation.syscall,
      Option.map_some, threadAioCall, hfd, hbytes hlen]
    rfl
  | write payload =>
    have hlen : payload.length < 2 ^ 31 := hlen
    simp only [ask, threadAioOp, ThreadAio.AIOOperation.write, ThreadAio.AIOOperation.syscall,
      Option.map_some, threadAioCall, hfd, hbytes hlen, before_write, List.take_length]
    rfl
  | fsync | fdsync =>
    simp only [ask, threadAioOp, ThreadAio.AIOOperation.fsync, ThreadAio.AIOOperation.fdsync,
      ThreadAio.AIOOperation.syscall, Option.map_some, threadAioCall, hfd]
    rfl

theorem python_ask : ask req place .python = some (Request.call req none) := by
  obtain ⟨kind, fd, offset⟩ := req
  cases kind <;> rfl

/-- Whichever backend an Operation is on, the kernel gets the call that the arguments stand for. -/
theorem ask_eq (hfd : req.fd.toNat < 2 ^ 31) (hlen : req.length < 2 ^ 31) (b : Backend) :
    ask req place b = some (Request.call req (place.target b)) := by
  cases b with
  | uring => exact uring_ask hfd hlen
  | linux => exact linux_ask hlen
  | thread => exact thread_ask hfd hlen
  | python => exact python_ask

theorem landed_eq {out : Outcome} (hout : req.Allows out) (buf : Allocation) :
    (Request.call req (some buf)).landed out (before req buf) = memory req out buf := by
  obtain ⟨kind, fd, offset⟩ := req
  cases kind with
  | write payload => rfl
  | fsync | fdsync => rfl
  | read nbytes =>
    cases out with
    | failure errno => rfl
    | success r data =>
      obtain ⟨-, hdata⟩ := hout
      funext addr
      simp only [Call.landed, Request.call, before, memory, bufferOf, lying_self]
      by_cases haddr : addr = buf
      · rw [haddr, Function.update_self, lying_self, transfer, List.drop_replicate, hdata]
      · rw [Function.update_of_ne haddr, lying, if_neg haddr, lying, if_neg haddr]

theorem value_eq {out : Outcome} (hlen : req.length < 2 ^ 31) (hout : req.Allows out)
    (b : Backend) :
    value ((Request.call req (place.target b)).landed out (before req place.buf)) req out place b =
      answer req out := by
  cases b with
  | python => exact pythonAio_eq req out
  | uring =>
    rw [Place.target, landed_eq hout]
    exact uring_eq hlen hout place.buf
  | linux =>
    rw [Place.target, landed_eq hout]
    exact linuxAio_eq hlen hout place.self place.buf
  | thread =>
    rw [Place.target, landed_eq hout]
    exact threadAio_eq hlen hout place.buf place.view

abbrev Files := Int → List UInt8

/-- What the kernel makes of a call: it transfers up to `n` bytes, or fails. -/
inductive Grant
  | transfer (n : ℕ)
  | fail (errno : ℕ)

def perform (files : Files) (call : Call) : Grant → Files × Outcome
  | .fail errno => (files, .failure errno)
  | .transfer n =>
    match call.kind with
    | .read nbytes =>
      let data := OpenFile.pread (files call.fd) call.offset.toNat (min n nbytes)
      (files, .success data.length data)
    | .write payload =>
      let data := payload.take n
      (Function.update files call.fd
          (OpenFile.pwrite (files call.fd) call.offset.toNat data),
        .success data.length data)
    | .fsync | .fdsync => (files, .success 0 [])

structure Step where
  backend : Backend
  place : Place
  req : Request
  grant : Grant

/-- An Operation from its constructor to `get_value()`. -/
def Step.run (x : Step) (files : Files) : Option (Files × Except Unit Value) :=
  (ask x.req x.place x.backend).map fun call =>
    let r := perform files call x.grant
    (r.1, value (call.landed r.2 (before x.req x.place.buf)) x.req r.2 x.place x.backend)

def run : List Step → Files → Option (Files × List (Except Unit Value))
  | [], files => some (files, [])
  | x :: xs, files =>
    (x.run files).bind fun r => (run xs r.1).map fun r' => (r'.1, r.2 :: r'.2)

/-- What the constructors take without a warning or a truncation, and what a file system allows: an
`int` for the descriptor, less than 2 GiB, an offset in the file, an `errno`. -/
structure Step.Valid (x : Step) : Prop where
  fd : x.req.fd.toNat < 2 ^ 31
  length : x.req.length < 2 ^ 31
  offset : 0 ≤ x.req.offset
  errno : ∀ errno, x.grant = .fail errno → 1 ≤ errno ∧ errno ≤ 133

def Step.serve (x : Step) (files : Files) : Files × Except Unit Value :=
  let r := perform files (Request.call x.req none) x.grant
  (r.1, answer x.req r.2)

def serve : List Step → Files → Files × List (Except Unit Value)
  | [], files => (files, [])
  | x :: xs, files =>
    let r := serve xs (x.serve files).1
    (r.1, (x.serve files).2 :: r.2)

theorem perform_into (files : Files) (req : Request) (buf : Option UInt64) (grant : Grant) :
    perform files (Request.call req buf) grant = perform files (Request.call req none) grant := by
  cases grant <;> rfl

theorem perform_allows {x : Step} (hx : x.Valid) (files : Files) :
    x.req.Allows (perform files (Request.call x.req none) x.grant).2 := by
  obtain ⟨backend, place, ⟨kind, fd, offset⟩, grant⟩ := x
  cases grant with
  | fail errno => exact hx.errno errno rfl
  | transfer n =>
    cases kind with
    | read nbytes =>
      refine ⟨?_, rfl⟩
      show (OpenFile.pread _ _ (min n nbytes)).length ≤ nbytes
      rw [OpenFile.pread, List.length_take]
      omega
    | write payload =>
      refine ⟨?_, rfl⟩
      show (payload.take n).length ≤ payload.length
      rw [List.length_take]
      exact Nat.min_le_right ..
    | fsync | fdsync => exact ⟨Nat.le_refl 0, rfl⟩

theorem Step.run_valid {x : Step} (hx : x.Valid) (files : Files) :
    x.run files = some (x.serve files) := by
  unfold Step.run
  rw [ask_eq hx.fd hx.length, Option.map_some]
  dsimp only
  rw [perform_into, value_eq hx.length (perform_allows hx files) x.backend]
  rfl

theorem run_valid {xs : List Step} (hxs : ∀ x ∈ xs, x.Valid) (files : Files) :
    run xs files = some (serve xs files) := by
  induction xs generalizing files with
  | nil => rfl
  | cons x xs ih =>
    obtain ⟨hx, hxs⟩ := List.forall_mem_cons.mp hxs
    rw [run, x.run_valid hx, Option.bind_some, ih hxs]
    rfl

/-- Any mix of backends asks for the calls that the arguments stand for, answers as the store does
and leaves the same files. -/
theorem run_eq {xs : List Step} (hxs : ∀ x ∈ xs, x.Valid) (files : Files) :
    (∀ x ∈ xs, ask x.req x.place x.backend =
      some (Request.call x.req (x.place.target x.backend))) ∧
    run xs files = some (serve xs files) :=
  ⟨fun x hx => ask_eq (hxs x hx).fd (hxs x hx).length x.backend, run_valid hxs files⟩

theorem bufAddr_ne_zero : (4096 : UInt64) ≠ 0 := by decide

/-- Three of four bytes written on linux_uring, and one on thread_aio over the second of them. -/
def session : List Step :=
  let place := ⟨16, ⟨4096, bufAddr_ne_zero⟩, 8192, 5⟩
  [⟨.uring, place, ⟨.write [1, 2, 3, 4], 3, 2⟩, .transfer 3⟩,
    ⟨.thread, place, ⟨.write [9], 3, 3⟩, .transfer 8⟩]

theorem session_valid : ∀ x ∈ session, x.Valid := by
  unfold session
  simp only [List.forall_mem_cons, List.not_mem_nil, false_imp_iff, implies_true, and_true]
  exact ⟨⟨by decide, by decide, by decide, fun _ h => by cases h⟩,
    by decide, by decide, by decide, fun _ h => by cases h⟩

theorem run_eq_session :
    run session (fun _ => []) = some (serve session fun _ => []) ∧
      (serve session fun _ => []).1 3 = [0, 0, 1, 9, 3] :=
  ⟨(run_eq session_valid _).2, rfl⟩

/-- The bytes of the files, with zeros behind their ends. -/
def bytes (files : Files) (fd : Int) (i : ℕ) : UInt8 := (files fd).getD i 0

/-- What a request and its answer say of the bytes: a write that was answered with `n` has put the
first `n` bytes of its payload in their place. -/
def record (byte : Int → ℕ → UInt8) (x : Request × Except Unit Value) (fd : Int) (i : ℕ) : UInt8 :=
  let offset := x.1.offset.toInt.toNat
  match x.1.kind, x.2 with
  | .write payload, .ok (.int n) =>
    if fd = x.1.fd.toNat ∧ offset ≤ i ∧ i < offset + n.toNat then payload.getD (i - offset) 0
    else byte fd i
  | _, _ => byte fd i

theorem serve_bytes (x : Step) (files : Files) :
    bytes (x.serve files).1 = record (bytes files) (x.req, (x.serve files).2) := by
  obtain ⟨backend, place, ⟨kind, fd, offset⟩, grant⟩ := x
  cases grant with
  | fail errno => cases kind <;> rfl
  | transfer n =>
    cases kind with
    | read nbytes => rfl
    | fsync | fdsync => rfl
    | write payload =>
      funext fd' i
      have hlength : (payload.take n).length ≤ payload.length := by
        rw [List.length_take]
        exact Nat.min_le_right ..
      have hbyte : ∀ j < (payload.take n).length, (payload.take n).getD j 0 = payload.getD j 0 := by
        intro j hj
        rw [List.length_take] at hj
        rw [List.getD_eq_getElem?_getD, List.getElem?_take_of_lt (by omega),
          List.getD_eq_getElem?_getD]
      show ((Function.update files _ _) fd').getD i 0 = if _ then _ else (files fd').getD i 0
      by_cases hfd : fd' = fd.toNat
      · subst hfd
        rw [Request.call, Function.update_self, OpenFile.getD_pwrite]
        dsimp only
        simp only [true_and, Int.toNat_natCast]
        refine ite_congr rfl (fun hi => hbyte _ (by omega)) fun _ => rfl
      · rw [Request.call, Function.update_of_ne hfd]
        exact (if_neg fun h => hfd h.1).symm

theorem run_bytes {xs : List Step} (hxs : ∀ x ∈ xs, x.Valid) {files files' : Files}
    {answers : List (Except Unit Value)} (hrun : run xs files = some (files', answers)) :
    bytes files' = ((xs.map Step.req).zip answers).foldl record (bytes files) := by
  induction xs generalizing files answers with
  | nil =>
    cases hrun
    rfl
  | cons x xs ih =>
    obtain ⟨hx, hxs⟩ := List.forall_mem_cons.mp hxs
    rw [run, x.run_valid hx, Option.bind_some] at hrun
    obtain ⟨⟨files₁, rest⟩, hrest, heq⟩ := Option.map_eq_some_iff.mp hrun
    cases heq
    rw [List.map_cons, List.zip_cons_cons, List.foldl_cons, ← serve_bytes]
    exact ih hxs hrest

/-- After any session, with every Operation on any backend, a read says at each place what the last
write that was acknowledged there has put, or what the file had before. -/
theorem reads_last_written {xs : List Step} {x : Step} (hxs : ∀ x ∈ xs, x.Valid) (hx : x.Valid)
    {files files' files'' : Files} {answers : List (Except Unit Value)} {data : List UInt8}
    (hrun : run xs files = some (files', answers))
    (hread : x.run files' = some (files'', .ok (.bytes data))) (k : ℕ) (v : UInt8)
    (hk : data[k]? = some v) :
    v = ((xs.map Step.req).zip answers).foldl record (bytes files) x.req.fd.toNat
      (x.req.offset.toInt.toNat + k) := by
  rw [← run_bytes hxs hrun]
  rw [x.run_valid hx] at hread
  obtain ⟨backend, place, ⟨kind, fd, offset⟩, grant⟩ := x
  cases grant with
  | fail errno => cases hread
  | transfer n =>
    cases kind with
    | write payload => cases hread
    | fsync | fdsync => cases hread
    | read nbytes =>
      cases hread
      rw [OpenFile.getElem?_pread] at hk
      obtain ⟨-, hk⟩ := Option.ite_none_right_eq_some.mp hk
      show v = (files' fd.toNat).getD (offset.toInt.toNat + k) 0
      rw [List.getD_eq_getElem?_getD]
      exact (congrArg (Option.getD · 0) hk).symm

theorem reads_last_written_session :
    [(⟨.write [1, 2, 3, 4], 3, 2⟩, .ok (.int 3)), (⟨.write [9], 3, 3⟩, .ok (.int 1))].foldl record
      (bytes fun _ => []) 3 3 = 9 := by
  have hread : Step.run ⟨.linux, ⟨32, ⟨12288, by decide⟩, 8192, 5⟩, ⟨.read 8, 3, 0⟩, .transfer 8⟩
      (serve session fun _ => []).1 =
        some ((serve session fun _ => []).1, .ok (.bytes [0, 0, 1, 9, 3])) := rfl
  have h := reads_last_written session_valid
    ⟨by decide, by decide, by decide, fun _ h => by cases h⟩ rfl hread 3 9 rfl
  exact h.symm

end Caio.Session
