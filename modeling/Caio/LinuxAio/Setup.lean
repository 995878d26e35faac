import Caio.Lib.Handles
import Caio.Python

namespace Caio.LinuxAio.Setup

def ctxMaxRequestsDefault : UInt32 := 32

/-- What `io_setup` stores. -/
structure IoContext where
  num : UInt64
  ne_zero : num ≠ 0

/-- What a call of `AIOContext_init` gets from the system calls and the parser. -/
structure Answers where
  eventfd : Except Int32 Fd
  /-- What the parser has stored, also when it fails. -/
  maxRequests : UInt32
  args : Except PyErr Unit
  ioSetup : UInt32 → Except Int32 IoContext

inductive Handle
  | context (ctx : UInt64)
  | fd (num : Int32)
deriving DecidableEq

structure AIOContext where
  ctx : UInt64
  fileno : Int32
  maxRequests : UInt32

namespace AIOContext

def new : AIOContext := { ctx := 0, fileno := 0, maxRequests := 0 }

def dealloc (self : AIOContext) : List Handle :=
  (if self.ctx ≠ 0 then [.context self.ctx] else []) ++
    if 0 ≤ self.fileno then [.fd self.fileno] else []

abbrev Tried := Attempt AIOContext PyErr Handle

def fail (self : AIOContext) (errno : Int32) : Tried := ⟨self, [], some (.systemError errno)⟩

def openEventfd (k : Answers) (self : AIOContext) : Tried :=
  let self := { self with ctx := 0, maxRequests := 0 }
  match k.eventfd with
  | .error errno => { self with fileno := -1 }.fail errno
  | .ok fd => ⟨{ self with fileno := fd.num }, [.fd fd.num], none⟩

def parse (k : Answers) (self : AIOContext) : Tried :=
  match k.args with
  | .error exc => ⟨{ self with maxRequests := k.maxRequests }, [], some exc⟩
  | .ok () =>
    let max := if k.maxRequests = 0 then ctxMaxRequestsDefault else k.maxRequests
    ⟨{ self with maxRequests := max }, [], none⟩

def ioSetup (k : Answers) (self : AIOContext) : Tried :=
  match k.ioSetup self.maxRequests with
  | .error errno => self.fail errno
  | .ok ctx => ⟨{ self with ctx := ctx.num }, [.context ctx.num], none⟩

def init (self : AIOContext) (k : Answers) : Tried :=
  ((self.openEventfd k).andThen (parse k)).andThen (ioSetup k)

theorem dealloc_fd (fd : Fd) (max : UInt32) :
    dealloc { ctx := 0, fileno := fd.num, maxRequests := max } = [.fd fd.num] := by
  unfold dealloc
  rw [if_neg (not_not.mpr rfl), if_pos fd.nonneg]
  rfl

theorem dealloc_both (ctx : IoContext) (fd : Fd) (max : UInt32) :
    dealloc { ctx := ctx.num, fileno := fd.num, maxRequests := max } =
      [.context ctx.num, .fd fd.num] := by
  unfold dealloc
  rw [if_pos ctx.ne_zero, if_pos fd.nonneg]
  rfl

/-- `AIOContext_init` forgets what the object was before; what it has acquired itself, the finaliser
gives back, wherever it has failed. -/
theorem dealloc_init (self : AIOContext) (k : Answers) :
    (self.init k).self.dealloc.Perm (self.init k).acquired := by
  unfold init openEventfd
  dsimp only
  split
  · exact .refl _
  · rename_i fd _
    rw [Attempt.andThen_of_ok (rfl : Attempt.err (⟨_, _, none⟩ : Tried) = none)]
    unfold parse
    dsimp only
    split
    · rw [Attempt.andThen_of_err rfl]
      exact .of_eq (dealloc_fd ..)
    · rw [Attempt.andThen_of_ok rfl]
      unfold ioSetup
      dsimp only
      split
      · exact .of_eq (dealloc_fd ..)
      · dsimp only
        rw [dealloc_both]
        exact .swap ..

end AIOContext

def context : HandleClass AIOContext Answers Handle where
  Valid _ := True
  new := .new
  init self k := ((self.init k).self, (self.init k).acquired)
  released := AIOContext.dealloc

theorem context_lawful : context.Lawful where
  valid_new := trivial
  valid_init _ _ _ _ := trivial
  first k _ := AIOContext.dealloc_init .new k
  again x k _ _ hmem := .inr ((AIOContext.dealloc_init x k).mem_iff.mp hmem)
  nodup x k _ _ hacquired _ := (AIOContext.dealloc_init x k).nodup_iff.mpr hacquired

theorem released_new : context.released context.new = [.fd 0] := by decide

theorem proper_iff {n : ℕ} : Handles.Proper context n ↔ 0 < n := by
  unfold Handles.Proper
  rw [released_new]
  exact or_iff_left (List.cons_ne_nil _ _)

/-- The finaliser runs on objects of which `__init__` has been called. -/
def Initialised (s : Handles AIOContext Handle) (b : Handles.Action Answers Handle) : Prop :=
  ∀ i x, b = .finalise i → s.objects[i]? ≠ some (.live 0 x)

variable {s t : Handles AIOContext Handle} {bs : List (Handles.Action Answers Handle)}

theorem initialised_eq : Handles.Initialised context = Initialised := by
  funext s b
  cases b with
  | finalise i =>
    refine propext ⟨fun h j x hj hx => ?_, fun h n x hx => proper_iff.mpr ?_⟩
    · cases hj
      exact Nat.lt_irrefl 0 (proper_iff.mp (h 0 x hx))
    · refine Nat.pos_of_ne_zero fun hn => ?_
      subst hn
      exact h i x rfl hx
  | acquire | release | new | init =>
    refine propext ⟨fun _ i x hi => ?_, fun _ => trivial⟩
    cases hi

/-- In a run of a process with any number of Contexts and with any other descriptors no finaliser
gives back what its Context does not have, if and only if every Context that is finalised has been
initialised; then nothing is left of a Context that was initialised once, also without success. -/
theorem returns_its_own_iff (hs : (Handles.system context).init s)
    (hrun : (Handles.system context).exec s bs = some t) :
    ((Handles.system context).Visits (fun s => s.strayed = []) s bs ↔
      (Handles.system context).Meets Initialised s bs) ∧
    ((Handles.system context).Meets Initialised s bs →
      ∀ i n : ℕ, t.objects[i]? = some (.dead n) → n ≤ 1 → ∀ h, t.owner h ≠ some (.object i)) := by
  rw [← initialised_eq]
  refine ⟨Handles.visits_iff_meets context_lawful (Handles.inv_init hs) hrun,
    fun hmeets i n hi hn => ?_⟩
  have hreach := TransitionSystem.ReachableBy.exec (.init hs) hmeets hrun
  exact (Handles.inv context_lawful hreach).nothing_left hi hn

def process : Handles AIOContext Handle where
  owner h := if h = .fd 0 then some .program else none
  objects := []
  strayed := []

theorem process_init : (Handles.system context).init process := by
  refine ⟨fun h i => ?_, rfl, rfl⟩
  unfold process
  dsimp only
  split
  · exact fun heq => by cases heq
  · exact (Option.some_ne_none _).symm

def answers : Answers where
  eventfd := .ok ⟨3, by decide⟩
  maxRequests := 0
  args := .ok ()
  ioSetup _ := .ok ⟨4096, by decide⟩

/-- The Context that was never initialised closes descriptor 0 of the program. -/
theorem returns_its_own_iff_new :
    ¬ (Handles.system context).Visits (fun s => s.strayed = []) process
      [.new, .init 0 answers, .finalise 0, .new, .finalise 1] := by
  have hrun : (Handles.system context).exec process
      [.new, .init 0 answers, .finalise 0, .new, .finalise 1] = some _ := rfl
  rw [(returns_its_own_iff process_init hrun).1]
  rintro ⟨-, -, -, -, h, -⟩
  exact h 1 .new rfl rfl

end Caio.LinuxAio.Setup
