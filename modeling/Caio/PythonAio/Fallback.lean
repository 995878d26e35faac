import Mathlib.Data.UInt
import Mathlib.Logic.Function.Basic
import Caio.Lib.OpenFile
import Caio.Lib.Transition
import Caio.PythonAio.Operation

/-!
# pread and pwrite by lseek

`__pread` and `__pwrite` where `os` has neither: worker threads of any number of Contexts, each
Context with a weak table of locks by descriptor. Every call of `os` is one step, and so is the
section under `_locks_cleaner`.
-/

namespace Caio.PythonAio

abbrev LockId := ℕ

/-- What a section comes to; `_OP_MAP`'s handler passes it on. -/
abbrev Outcome := Except PyErr Operation.Returned

/-- Where a thread is in `__pread` or `__pwrite`; from `acquire` on it has a reference to a lock. -/
inductive SectionPc
  | lookup
  | acquire (l : LockId)
  /-- Before `os.lseek(fd, 0, os.SEEK_SET)`. -/
  | seekStart (l : LockId)
  /-- Before `os.lseek(fd, offset, os.SEEK_SET)`. -/
  | seek (l : LockId)
  /-- Before `os.read` or `os.write`. -/
  | transfer (l : LockId)
  | release (l : LockId) (outcome : Outcome)
  | done (outcome : Outcome)
deriving DecidableEq

def SectionPc.lock? : SectionPc → Option LockId
  | .acquire l | .seekStart l | .seek l | .transfer l | .release l _ => some l
  | .lookup | .done _ => none

def SectionPc.acquired? : SectionPc → Option LockId
  | .seekStart l | .seek l | .transfer l | .release l _ => some l
  | .lookup | .acquire _ | .done _ => none

/-- A thread in the handler of an Operation. -/
structure Section where
  ctx : CtxId
  op : Operation
  pc : SectionPc := .lookup
deriving DecidableEq

structure Fallback where
  files : Int → OpenFile UInt8
  /-- `_locks` -/
  locks : CtxId → Int → Option LockId
  /-- The locks made so far. -/
  created : ℕ
  owner : LockId → Option ℕ
  sections : List Section

namespace Fallback

def setPc (s : Fallback) (j : ℕ) (b : Section) (pc : SectionPc) : Fallback :=
  { s with sections := s.sections.set j { b with pc } }

def setFile (s : Fallback) (fd : Int) (f : OpenFile UInt8) : Fallback :=
  { s with files := Function.update s.files fd f }

def Referenced (s : Fallback) (l : LockId) : Prop := ∃ b ∈ s.sections, b.pc.lock? = some l

instance (s : Fallback) (l : LockId) : Decidable (s.Referenced l) :=
  inferInstanceAs (Decidable (∃ b ∈ s.sections, b.pc.lock? = some l))

/-- The section of `__fd_lock` under `_locks_cleaner`. -/
def fdLock (s : Fallback) (k : CtxId) (fd : Int) : LockId × Fallback :=
  match s.locks k fd with
  | some l => (l, s)
  | none =>
    (s.created,
      { s with
        locks := Function.update s.locks k (Function.update (s.locks k) fd (some s.created))
        created := s.created + 1 })

/-- `os.read` or `os.write` of which the kernel transfers `n` elements. -/
def transfer (op : Operation) (n : ℕ) (f : OpenFile UInt8) :
    Option (Operation.Returned × OpenFile UInt8) :=
  match op.opcode with
  | .read =>
    if n ≤ op.nbytes then some (.data (f.read n).1, (f.read n).2) else none
  | .write =>
    if n ≤ op.buffer.length then some (.count n, f.write (op.buffer.take n)) else none
  | _ => none

/-- A call of `os` that fails raises `OSError`. -/
def raised (errno : Int32) : Outcome := .error (.osErrno errno)

def einval : Int32 := 22

inductive Action
  /-- A worker thread of the Context enters `_handle_read` or `_handle_write`. -/
  | enter (k : CtxId) (op : Operation)
  | lookup (j : ℕ)
  | acquire (j : ℕ)
  | seekStart (j : ℕ)
  | seek (j : ℕ)
  | transfer (j : ℕ) (n : ℕ)
  /-- The next call of `os` fails. -/
  | fail (j : ℕ) (errno : Int32)
  | release (j : ℕ)
  /-- The entry of a lock that no thread refers to goes. -/
  | drop (k : CtxId) (fd : Int)

def onSection (s : Fallback) (j : ℕ) (f : Section → Option Fallback) : Option Fallback :=
  s.sections[j]?.bind f

def step (s : Fallback) : Action → Option Fallback
  | .enter k op =>
    if op.opcode = .read ∨ op.opcode = .write then
      some { s with sections := s.sections ++ [{ ctx := k, op }] }
    else none
  | .lookup j => s.onSection j fun b =>
    match b.pc with
    | .lookup =>
      let (l, s) := s.fdLock b.ctx b.op.fileno
      some (s.setPc j b (.acquire l))
    | _ => none
  | .acquire j => s.onSection j fun b =>
    match b.pc with
    | .acquire l =>
      if s.owner l = none then
        some { s.setPc j b (.seekStart l) with owner := Function.update s.owner l (some j) }
      else none
    | _ => none
  | .seekStart j => s.onSection j fun b =>
    match b.pc with
    | .seekStart l =>
      some ((s.setFile b.op.fileno ((s.files b.op.fileno).lseek 0)).setPc j b (.seek l))
    | _ => none
  | .seek j => s.onSection j fun b =>
    match b.pc with
    | .seek l =>
      -- lseek to a negative offset fails
      if b.op.offset < 0 then some (s.setPc j b (.release l (raised einval)))
      else some ((s.setFile b.op.fileno
        ((s.files b.op.fileno).lseek b.op.offset.toNat)).setPc j b (.transfer l))
    | _ => none
  | .transfer j n => s.onSection j fun b =>
    match b.pc with
    | .transfer l =>
      (transfer b.op n (s.files b.op.fileno)).map fun r =>
        (s.setFile b.op.fileno r.2).setPc j b (.release l (.ok r.1))
    | _ => none
  | .fail j errno => s.onSection j fun b =>
    match b.pc with
    | .seekStart l | .seek l | .transfer l => some (s.setPc j b (.release l (raised errno)))
    | _ => none
  | .release j => s.onSection j fun b =>
    match b.pc with
    | .release l outcome =>
      some { s.setPc j b (.done outcome) with owner := Function.update s.owner l none }
    | _ => none
  | .drop k fd =>
    match s.locks k fd with
    | some l =>
      if s.Referenced l then none
      else some { s with locks := Function.update s.locks k (Function.update (s.locks k) fd none) }
    | none => none

/-- Before any handler runs. -/
structure Init (s : Fallback) : Prop where
  locks : ∀ k fd, s.locks k fd = none
  created : s.created = 0
  owner : ∀ l, s.owner l = none
  sections : s.sections = []

def system : TransitionSystem Fallback Action := ⟨Init, step⟩

def new (files : Int → OpenFile UInt8) : Fallback :=
  { files, locks := fun _ _ => none, created := 0, owner := fun _ => none, sections := [] }

theorem new_init (files : Int → OpenFile UInt8) : Init (new files) :=
  ⟨fun _ _ => rfl, rfl, fun _ => rfl, rfl⟩

end Fallback

end Caio.PythonAio
