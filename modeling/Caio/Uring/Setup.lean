import Mathlib.Tactic.SplitIfs
import Caio.Lib.Handles
import Caio.Uring.World

namespace Caio.Uring.Setup

def einval : Int32 := 22

def eperm : Int32 := 1

def setupSqpoll : UInt32 := 2

def setupNoSqarray : UInt32 := 0x10000

def featSingleMmap : UInt32 := 1

def ctxMaxRequestsDefault : UInt32 := 32

/-- The fields of `struct io_sqring_offsets` and of `struct io_cqring_offsets` that are read. -/
structure SqOffsets where
  head : UInt32
  tail : UInt32
  ringMask : UInt32
  ringEntries : UInt32
  flags : UInt32
  array : UInt32

structure CqOffsets where
  head : UInt32
  tail : UInt32
  ringMask : UInt32
  ringEntries : UInt32
  cqes : UInt32

/-- `struct io_uring_params` as `io_uring_setup` leaves it. -/
structure Params where
  sqEntries : UInt32
  cqEntries : UInt32
  features : UInt32
  sqOff : SqOffsets
  cqOff : CqOffsets

/-- What to map, by its `IORING_OFF_*`. -/
inductive Region
  | sqRing
  | cqRing
  | sqes
deriving DecidableEq

/-- The start of a mapping; `mmap` returns no null pointer. -/
structure Address where
  num : ℕ
  ne_zero : num ≠ 0

/-- What the parser and the system calls of a call of `AIOContext_init` come to, and what the parser
has stored to `max_requests`. -/
structure Answers where
  maxRequests : UInt32
  /-- `want_sqpoll` -/
  args : Except PyErr Bool
  eventfd : Except Int32 Fd
  /-- `io_uring_setup` by its entries and its flags. -/
  setup : UInt32 → UInt32 → Except Int32 (Fd × Params)
  mmap : Region → Except Int32 Address
  register : Except Int32 Unit

/-- A mapping with its size, or a descriptor. -/
inductive Resource
  | mapping (ptr size : ℕ)
  | fd (num : Int32)
deriving DecidableEq, Repr

/-- The fields that `AIOContext_init` stores; a pointer is `none` for `MAP_FAILED`. -/
structure AIOContext where
  uringFd : Int32
  eventfdFd : Int32
  maxRequests : UInt32 := 0
  sqRingPtr : Option ℕ
  sqRingSize : ℕ := 0
  sqHead : ℕ := 0
  sqTail : ℕ := 0
  sqRingMask : ℕ := 0
  sqRingEntries : ℕ := 0
  sqFlags : ℕ := 0
  sqArray : ℕ := 0
  sqes : Option ℕ
  sqesSize : ℕ := 0
  cqRingPtr : Option ℕ
  cqRingSize : ℕ := 0
  cqHead : ℕ := 0
  cqTail : ℕ := 0
  cqRingMask : ℕ := 0
  cqRingEntries : ℕ := 0
  cqes : ℕ := 0
  noSqarray : Bool
  sqpoll : Bool

namespace AIOContext

def new : AIOContext where
  uringFd := -1
  eventfdFd := -1
  sqRingPtr := none
  sqes := none
  cqRingPtr := none
  noSqarray := false
  sqpoll := false

/-- A call of `munmap`, if the pointer is one; it fails for a length of 0. -/
def unmap (ptr : Option ℕ) (size : ℕ) : List Resource :=
  match ptr with
  | none => []
  | some p => if p ≠ 0 ∧ size ≠ 0 then [.mapping p size] else []

def closeFd (num : Int32) : List Resource := if 0 ≤ num then [.fd num] else []

def dealloc (self : AIOContext) : List Resource :=
  unmap self.sqRingPtr self.sqRingSize ++ unmap self.sqes self.sqesSize ++
    (if self.cqRingPtr = self.sqRingPtr then [] else unmap self.cqRingPtr self.cqRingSize) ++
    closeFd self.uringFd ++ closeFd self.eventfdFd

abbrev Tried := Attempt AIOContext PyErr Resource

def fail (self : AIOContext) (errno : Int32) : Tried := ⟨self, [], some (.systemError errno)⟩

def parse (k : Answers) (self : AIOContext) : Tried :=
  match k.args with
  | .error exc => ⟨{ self with maxRequests := k.maxRequests }, [], some exc⟩
  | .ok _ =>
    let max := if k.maxRequests = 0 then ctxMaxRequestsDefault else k.maxRequests
    ⟨{ self with maxRequests := max }, [], none⟩

def openEventfd (k : Answers) (self : AIOContext) : Tried :=
  match k.eventfd with
  | .error errno => { self with eventfdFd := -1 }.fail errno
  | .ok fd => ⟨{ self with eventfdFd := fd.num }, [.fd fd.num], none⟩

def flagTable (wantSqpoll : Bool) : List UInt32 :=
  if wantSqpoll then [setupSqpoll ||| setupNoSqarray, setupSqpoll, 0] else [setupNoSqarray, 0]

/-- The loop over a flag table, from the last `errno` on: the ring with the flags it was made with.
-/
def setupRing (setup : UInt32 → Except Int32 (Fd × Params)) :
    List UInt32 → Int32 → Except Int32 (Fd × Params × UInt32)
  | [], errno => .error errno
  | flags :: table, _ =>
    match setup flags with
    | .ok (fd, params) => .ok (fd, params, flags)
    | .error errno =>
      if errno ≠ einval ∧ errno ≠ eperm then .error errno else setupRing setup table errno

def takeRing (fd : Fd) (flags : UInt32) (self : AIOContext) : Tried :=
  ⟨{ self with
      uringFd := fd.num
      noSqarray := flags &&& setupNoSqarray ≠ 0
      sqpoll := flags &&& setupSqpoll ≠ 0 }, [.fd fd.num], none⟩

/-- `mmap`, which fails for a length of 0. -/
def map (k : Answers) (region : Region) (size : ℕ) : Except Int32 Address :=
  if size = 0 then .error einval else k.mmap region

def sqBytes (self : AIOContext) (params : Params) : ℕ :=
  if self.noSqarray then params.sqOff.flags.toNat + 4
  else params.sqOff.array.toNat + params.sqEntries.toNat * 4

def cqBytes (params : Params) : ℕ := params.cqOff.cqes.toNat + params.cqEntries.toNat * 16

def mapSqRing (k : Answers) (size : ℕ) (self : AIOContext) : Tried :=
  let self := { self with sqRingSize := size }
  match map k .sqRing size with
  | .error errno => { self with sqRingPtr := none }.fail errno
  | .ok ptr => ⟨{ self with sqRingPtr := some ptr.num }, [.mapping ptr.num size], none⟩

def mapCqRing (k : Answers) (size : ℕ) (self : AIOContext) : Tried :=
  let self := { self with cqRingSize := size }
  match map k .cqRing size with
  | .error errno => { self with cqRingPtr := none }.fail errno
  | .ok ptr => ⟨{ self with cqRingPtr := some ptr.num }, [.mapping ptr.num size], none⟩

/-- The completion ring in the mapping of the submission ring. -/
def shareRing (self : AIOContext) : Tried :=
  ⟨{ self with cqRingPtr := self.sqRingPtr, cqRingSize := 0 }, [], none⟩

def mapRings (k : Answers) (params : Params) (self : AIOContext) : Tried :=
  if params.features &&& featSingleMmap ≠ 0 then
    (self.mapSqRing k (max (self.sqBytes params) (cqBytes params))).andThen shareRing
  else (self.mapSqRing k (self.sqBytes params)).andThen (mapCqRing k (cqBytes params))

def locateSq (params : Params) (self : AIOContext) : AIOContext :=
  let sq := self.sqRingPtr.getD 0
  { self with
    sqHead := sq + params.sqOff.head.toNat
    sqTail := sq + params.sqOff.tail.toNat
    sqRingMask := sq + params.sqOff.ringMask.toNat
    sqRingEntries := sq + params.sqOff.ringEntries.toNat
    sqFlags := sq + params.sqOff.flags.toNat
    sqArray := sq + params.sqOff.array.toNat }

def locateCq (params : Params) (self : AIOContext) : AIOContext :=
  let cq := self.cqRingPtr.getD 0
  { self with
    cqHead := cq + params.cqOff.head.toNat
    cqTail := cq + params.cqOff.tail.toNat
    cqRingMask := cq + params.cqOff.ringMask.toNat
    cqRingEntries := cq + params.cqOff.ringEntries.toNat
    cqes := cq + params.cqOff.cqes.toNat }

def mapSqes (k : Answers) (params : Params) (self : AIOContext) : Tried :=
  let size := params.sqEntries.toNat * 64
  let self := { self.locateSq params with sqesSize := size }
  match map k .sqes size with
  | .error errno => { self with sqes := none }.fail errno
  | .ok ptr =>
    ⟨{ self with sqes := some ptr.num }.locateCq params, [.mapping ptr.num size], none⟩

def registerEventfd (k : Answers) (self : AIOContext) : Tried :=
  match k.register with
  | .error errno => self.fail errno
  | .ok () => ⟨self, [], none⟩

def initRing (k : Answers) (self : AIOContext) : Tried :=
  match setupRing (k.setup (self.maxRequests + 1)) (flagTable (k.args.toOption.getD false)) 0 with
  | .error errno => { self with uringFd := -1 }.fail errno
  | .ok (fd, params, flags) =>
    (((self.takeRing fd flags).andThen (mapRings k params)).andThen (mapSqes k params)).andThen
      (registerEventfd k)

def init (self : AIOContext) (k : Answers) : Tried :=
  ((self.parse k).andThen (openEventfd k)).andThen (initRing k)

end AIOContext

end Caio.Uring.Setup
