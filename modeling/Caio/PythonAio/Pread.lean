import Mathlib.Tactic.SplitIfs
import Caio.Lib.Table
import Caio.PythonAio.Fallback

namespace Caio.PythonAio

/-- Before its read or write, after its second `lseek`. -/
def Section.Placed (b : Section) : Prop := ∃ l, b.pc = .transfer l

instance (b : Section) : Decidable b.Placed :=
  match h : b.pc with
  | .transfer l => isTrue ⟨l, h⟩
  | .lookup | .acquire _ | .seekStart _ | .seek _ | .release _ _ | .done _ =>
    isFalse fun hp => by
      obtain ⟨l, hl⟩ := hp
      rw [h] at hl
      cases hl

namespace Fallback

variable {s t : Fallback} {i j : ℕ} {b d : Section} {l m : LockId}

theorem onSection_eq_some {f : Section → Option Fallback} (h : s.onSection j f = some t) :
    ∃ b, s.sections[j]? = some b ∧ f b = some t := Option.bind_eq_some_iff.mp h

/-- A thread's lock is the table's entry of its Context and descriptor, and has one owner. -/
structure Exclusive (s : Fallback) : Prop where
  entry : ∀ (j : ℕ) (b : Section) (l : LockId), s.sections[j]? = some b → b.pc.lock? = some l →
    s.locks b.ctx b.op.fileno = some l
  owner : ∀ (j : ℕ) (b : Section) (l : LockId), s.sections[j]? = some b →
    b.pc.acquired? = some l → s.owner l = some j

theorem lock?_of_acquired? {pc : SectionPc} (h : pc.acquired? = some l) : pc.lock? = some l := by
  cases pc with
  | lookup | acquire _ | done _ => cases h
  | seekStart _ | seek _ | transfer _ | release _ _ => exact h

theorem Exclusive.eq (h : Exclusive s) (hi : s.sections[i]? = some b) (hj : s.sections[j]? = some d)
    (hb : b.pc.acquired? = some l) (hd : d.pc.acquired? = some m) (hctx : d.ctx = b.ctx)
    (hfd : d.op.fileno = b.op.fileno) : j = i := by
  have hl := h.entry i b l hi (lock?_of_acquired? hb)
  have hm := h.entry j d m hj (lock?_of_acquired? hd)
  rw [hctx, hfd, hl] at hm
  have howner := h.owner j d m hj hd
  rw [← Option.some.inj hm, h.owner i b l hi hb] at howner
  exact (Option.some.inj howner).symm

theorem Init.exclusive (h : Init s) : Exclusive s := by
  have hnone : ∀ j : ℕ, s.sections[j]? = none := fun j => by
    rw [h.sections]
    exact List.getElem?_nil
  refine ⟨fun j b l hb => ?_, fun j b l hb => ?_⟩
  · rw [hnone] at hb
    cases hb
  · rw [hnone] at hb
    cases hb

theorem Exclusive.setPc (h : Exclusive s) (hb : s.sections[j]? = some b) (pc : SectionPc)
    (hsections : t.sections = s.sections.set j { b with pc })
    (hentry : ∀ l, pc.lock? = some l → t.locks b.ctx b.op.fileno = some l)
    (howner : ∀ l, pc.acquired? = some l → t.owner l = some j)
    (hlocks : ∀ k fd l, s.locks k fd = some l → t.locks k fd = some l)
    (howners : ∀ i l, i ≠ j → s.owner l = some i → t.owner l = some i) : Exclusive t := by
  refine ⟨fun i d l hd hl => ?_, fun i d l hd hl => ?_⟩
  · rw [hsections] at hd
    rcases Table.getElem?_set_cases hd with ⟨-, rfl⟩ | ⟨-, hd⟩
    · exact hentry l hl
    · exact hlocks _ _ _ (h.entry i d l hd hl)
  · rw [hsections] at hd
    rcases Table.getElem?_set_cases hd with ⟨rfl, rfl⟩ | ⟨hij, hd⟩
    · exact howner l hl
    · exact howners i l hij (h.owner i d l hd hl)

theorem Exclusive.goOn (h : Exclusive s) (hb : s.sections[j]? = some b) (pc : SectionPc)
    (hsections : t.sections = s.sections.set j { b with pc }) (hlocks : t.locks = s.locks)
    (howner : t.owner = s.owner) (hacquired : b.pc.acquired? = some l)
    (hpc : pc.acquired? = some l) : Exclusive t := by
  apply h.setPc hb pc hsections
  · intro m hm
    rw [lock?_of_acquired? hpc] at hm
    rw [← Option.some.inj hm, hlocks]
    exact h.entry j b l hb (lock?_of_acquired? hacquired)
  · intro m hm
    rw [hpc] at hm
    rw [← Option.some.inj hm, howner]
    exact h.owner j b l hb hacquired
  · intro k fd m hm
    rw [hlocks]
    exact hm
  · intro i m _ hm
    rw [howner]
    exact hm

theorem fdLock_locks (s : Fallback) (k : CtxId) (fd : Int) :
    (s.fdLock k fd).2.locks k fd = some (s.fdLock k fd).1 ∧
      ∀ k' fd' l, s.locks k' fd' = some l → (s.fdLock k fd).2.locks k' fd' = some l := by
  unfold fdLock
  split
  case h_1 l hl => exact ⟨hl, fun _ _ _ => id⟩
  case h_2 hnone =>
    refine ⟨?_, fun k' fd' l hl => ?_⟩
    · show Function.update s.locks k (Function.update (s.locks k) fd _) k fd = _
      rw [Function.update_self, Function.update_self]
    · show Function.update s.locks k (Function.update (s.locks k) fd _) k' fd' = _
      by_cases hk : k' = k
      · rw [hk] at hl ⊢
        rw [Function.update_self]
        by_cases hfd : fd' = fd
        · rw [hfd, hnone] at hl
          cases hl
        · rw [Function.update_of_ne hfd]
          exact hl
      · rw [Function.update_of_ne hk]
        exact hl

theorem fdLock_sections (s : Fallback) (k : CtxId) (fd : Int) :
    (s.fdLock k fd).2.sections = s.sections ∧ (s.fdLock k fd).2.owner = s.owner ∧
      (s.fdLock k fd).2.files = s.files := by
  unfold fdLock
  split
  · exact ⟨rfl, rfl, rfl⟩
  · exact ⟨rfl, rfl, rfl⟩

theorem Exclusive.drop (h : Exclusive s) {k : CtxId} {fd : Int} (hl : s.locks k fd = some l)
    (hfree : ¬s.Referenced l) :
    Exclusive { s with
      locks := Function.update s.locks k (Function.update (s.locks k) fd none) } := by
  refine ⟨fun j b m hb hm => ?_, h.owner⟩
  have hentry := h.entry j b m hb hm
  show Function.update s.locks k (Function.update (s.locks k) fd none) b.ctx b.op.fileno = some m
  by_cases hk : b.ctx = k
  · rw [hk, Function.update_self]
    by_cases hfd : b.op.fileno = fd
    · rw [hk, hfd, hl] at hentry
      have hused : s.Referenced l := by
        rw [Option.some.inj hentry]
        exact ⟨b, List.mem_of_getElem? hb, hm⟩
      exact absurd hused hfree
    · rw [Function.update_of_ne hfd, ← hk]
      exact hentry
  · rw [Function.update_of_ne hk]
    exact hentry

theorem Exclusive.step (h : Exclusive s) {a : Action} (hs : s.step a = some t) : Exclusive t := by
  cases a with
  | enter k op =>
    obtain ⟨-, hs⟩ := Option.ite_none_right_eq_some.mp hs
    cases hs
    refine ⟨fun j b l hb hl => ?_, fun j b l hb hl => ?_⟩
    · rcases Table.getElem?_append_one_cases hb with hb | ⟨-, rfl⟩
      · exact h.entry j b l hb hl
      · cases hl
    · rcases Table.getElem?_append_one_cases hb with hb | ⟨-, rfl⟩
      · exact h.owner j b l hb hl
      · cases hl
  | lookup j =>
    obtain ⟨b, hb, hs⟩ := onSection_eq_some hs
    split at hs
    case h_1 =>
      cases hs
      obtain ⟨hentry, hlocks⟩ := fdLock_locks s b.ctx b.op.fileno
      obtain ⟨hsections, howner, -⟩ := fdLock_sections s b.ctx b.op.fileno
      apply h.setPc hb (.acquire _) (congrArg (List.set · j _) hsections)
      · intro l hl
        rw [← Option.some.inj hl]
        exact hentry
      · intro l hl
        cases hl
      · exact hlocks
      · intro i l _ hl
        show (s.fdLock b.ctx b.op.fileno).2.owner l = some i
        rw [howner]
        exact hl
    case h_2 => cases hs
  | acquire j =>
    obtain ⟨b, hb, hs⟩ := onSection_eq_some hs
    split at hs
    case h_1 l hpc =>
      obtain ⟨hfree, hs⟩ := Option.ite_none_right_eq_some.mp hs
      cases hs
      apply h.setPc hb (.seekStart l) rfl
      · intro m hm
        apply h.entry j b m hb
        rw [hpc]
        exact hm
      · intro m hm
        rw [← Option.some.inj hm]
        exact Function.update_self ..
      · exact fun _ _ _ => id
      · intro i m _ hm
        have hne : m ≠ l := by
          intro heq
          rw [heq, hfree] at hm
          cases hm
        exact (Function.update_of_ne hne ..).trans hm
    case h_2 => cases hs
  | seekStart j =>
    obtain ⟨b, hb, hs⟩ := onSection_eq_some hs
    split at hs
    case h_1 l hpc =>
      cases hs
      exact h.goOn hb (.seek l) rfl rfl rfl (by rw [hpc]; rfl) rfl
    case h_2 => cases hs
  | seek j =>
    obtain ⟨b, hb, hs⟩ := onSection_eq_some hs
    split at hs
    case h_1 l hpc =>
      split_ifs at hs
      · cases hs
        exact h.goOn hb (.release l _) rfl rfl rfl (by rw [hpc]; rfl) rfl
      · cases hs
        exact h.goOn hb (.transfer l) rfl rfl rfl (by rw [hpc]; rfl) rfl
    case h_2 => cases hs
  | transfer j n =>
    obtain ⟨b, hb, hs⟩ := onSection_eq_some hs
    split at hs
    case h_1 l hpc =>
      obtain ⟨r, -, hs⟩ := Option.map_eq_some_iff.mp hs
      cases hs
      exact h.goOn hb (.release l (.ok r.1)) rfl rfl rfl (by rw [hpc]; rfl) rfl
    case h_2 => cases hs
  | fail j errno =>
    obtain ⟨b, hb, hs⟩ := onSection_eq_some hs
    split at hs
    case h_1 l hpc | h_2 l hpc | h_3 l hpc =>
      cases hs
      exact h.goOn hb (.release l (raised errno)) rfl rfl rfl (by rw [hpc]; rfl) rfl
    case h_4 => cases hs
  | release j =>
    obtain ⟨b, hb, hs⟩ := onSection_eq_some hs
    split at hs
    case h_1 l outcome hpc =>
      cases hs
      apply h.setPc hb (.done outcome) rfl
      · intro m hm
        cases hm
      · intro m hm
        cases hm
      · exact fun _ _ _ => id
      · intro i m hij hm
        -- only the thread itself has acquired the lock that becomes free
        have hself : s.owner l = some j := h.owner j b l hb (by rw [hpc]; rfl)
        have hne : m ≠ l := by
          intro heq
          rw [heq, hself] at hm
          exact hij (Option.some.inj hm).symm
        exact (Function.update_of_ne hne ..).trans hm
    case h_2 => cases hs
  | drop k fd =>
    simp only [Fallback.step] at hs
    split at hs
    case h_1 l hl =>
      split_ifs at hs with hfree
      cases hs
      exact h.drop hl hfree
    case h_2 => cases hs

theorem exclusive (h : system.Reachable s) : Exclusive s :=
  h.invariant (fun _ => Init.exclusive) fun _ _ _ h _ hs => h.step hs

def Action.mover? : Action → Option ℕ
  | .seekStart j | .seek j | .transfer j _ => some j
  | _ => none

/-- No thread moves the position of a descriptor on which a thread of another Context has placed
itself. -/
def Apart (s : Fallback) (a : Action) : Prop :=
  ∀ j ∈ a.mover?, ∀ b ∈ s.sections[j]?, ∀ d ∈ s.sections,
    d.op.fileno = b.op.fileno → d.Placed → d.ctx = b.ctx

instance (s : Fallback) (a : Action) : Decidable (s.Apart a) :=
  inferInstanceAs (Decidable (∀ j ∈ a.mover?, ∀ b ∈ s.sections[j]?, ∀ d ∈ s.sections,
    d.op.fileno = b.op.fileno → d.Placed → d.ctx = b.ctx))

/-- The position is the offset of every Operation whose thread has placed itself. -/
def Positioned (s : Fallback) : Prop :=
  ∀ (j : ℕ) (b : Section), s.sections[j]? = some b → b.Placed →
    0 ≤ b.op.offset ∧ (s.files b.op.fileno).pos = b.op.offset.toNat

theorem Positioned.setPc (h : Positioned s) (pc : SectionPc)
    (hsections : t.sections = s.sections.set j { b with pc })
    (hself : ∀ l, pc = .transfer l →
      0 ≤ b.op.offset ∧ (t.files b.op.fileno).pos = b.op.offset.toNat)
    (hothers : ∀ (i : ℕ) (d : Section), i ≠ j → s.sections[i]? = some d → d.Placed →
      t.files d.op.fileno = s.files d.op.fileno) : Positioned t := by
  intro i d hd hplaced
  rw [hsections] at hd
  rcases Table.getElem?_set_cases hd with ⟨-, rfl⟩ | ⟨hij, hd⟩
  · obtain ⟨l, hl⟩ := hplaced
    exact hself l hl
  · rw [hothers i d hij hd hplaced]
    exact h i d hd hplaced

theorem files_of_apart (he : Exclusive s) (hb : s.sections[j]? = some b)
    (hacquired : b.pc.acquired? = some l)
    (happart : ∀ d ∈ s.sections, d.op.fileno = b.op.fileno → d.Placed → d.ctx = b.ctx)
    (f : OpenFile UInt8) (i : ℕ) (d : Section) (hij : i ≠ j) (hd : s.sections[i]? = some d)
    (hplaced : d.Placed) : (s.setFile b.op.fileno f).files d.op.fileno = s.files d.op.fileno := by
  by_cases hfd : d.op.fileno = b.op.fileno
  · have hctx := happart d (List.mem_of_getElem? hd) hfd hplaced
    obtain ⟨m, hm⟩ := hplaced
    exact absurd (he.eq hb hd hacquired (by rw [hm]; rfl) hctx hfd) hij
  · exact Function.update_of_ne hfd ..

theorem Positioned.step (he : Exclusive s) (h : Positioned s) {a : Action} (hc : Apart s a)
    (hs : s.step a = some t) : Positioned t := by
  have hkeep : ∀ (i : ℕ) (d : Section), s.sections[i]? = some d → d.Placed →
      s.files d.op.fileno = s.files d.op.fileno := fun _ _ _ _ => rfl
  cases a with
  | enter k op =>
    obtain ⟨-, hs⟩ := Option.ite_none_right_eq_some.mp hs
    cases hs
    intro j b hb hplaced
    rcases Table.getElem?_append_one_cases hb with hb | ⟨-, rfl⟩
    · exact h j b hb hplaced
    · obtain ⟨l, hl⟩ := hplaced
      cases hl
  | lookup j =>
    obtain ⟨b, hb, hs⟩ := onSection_eq_some hs
    split at hs
    case h_1 =>
      cases hs
      obtain ⟨hsections, -, hfiles⟩ := fdLock_sections s b.ctx b.op.fileno
      apply h.setPc (.acquire _) (congrArg (List.set · j _) hsections)
      · intro l hl
        cases hl
      · intro i d _ _ _
        exact congrFun hfiles _
    case h_2 => cases hs
  | acquire j =>
    obtain ⟨b, hb, hs⟩ := onSection_eq_some hs
    split at hs
    case h_1 l hpc =>
      obtain ⟨-, hs⟩ := Option.ite_none_right_eq_some.mp hs
      cases hs
      apply h.setPc (.seekStart l) rfl
      · intro m hm
        cases hm
      · exact fun i d _ => hkeep i d
    case h_2 => cases hs
  | seekStart j =>
    obtain ⟨b, hb, hs⟩ := onSection_eq_some hs
    split at hs
    case h_1 l hpc =>
      cases hs
      apply h.setPc (.seek l) rfl
      · intro m hm
        cases hm
      · exact files_of_apart he hb (l := l) (by rw [hpc]; rfl) (hc j rfl b hb) _
    case h_2 => cases hs
  | seek j =>
    obtain ⟨b, hb, hs⟩ := onSection_eq_some hs
    split at hs
    case h_1 l hpc =>
      split_ifs at hs with hneg
      · cases hs
        apply h.setPc (.release l _) rfl
        · intro m hm
          cases hm
        · exact fun i d _ => hkeep i d
      · cases hs
        apply h.setPc (.transfer l) rfl
        · intro m _
          refine ⟨Int.not_lt.mp hneg, ?_⟩
          show (Function.update s.files b.op.fileno _ b.op.fileno).pos = _
          rw [Function.update_self]
          rfl
        · exact files_of_apart he hb (l := l) (by rw [hpc]; rfl) (hc j rfl b hb) _
    case h_2 => cases hs
  | transfer j n =>
    obtain ⟨b, hb, hs⟩ := onSection_eq_some hs
    split at hs
    case h_1 l hpc =>
      obtain ⟨r, -, hs⟩ := Option.map_eq_some_iff.mp hs
      cases hs
      apply h.setPc (.release l (.ok r.1)) rfl
      · intro m hm
        cases hm
      · exact files_of_apart he hb (l := l) (by rw [hpc]; rfl) (hc j rfl b hb) _
    case h_2 => cases hs
  | fail j errno =>
    obtain ⟨b, hb, hs⟩ := onSection_eq_some hs
    split at hs
    case h_1 l hpc | h_2 l hpc | h_3 l hpc =>
      cases hs
      apply h.setPc (.release l (raised errno)) rfl
      · intro m hm
        cases hm
      · exact fun i d _ => hkeep i d
    case h_4 => cases hs
  | release j =>
    obtain ⟨b, hb, hs⟩ := onSection_eq_some hs
    split at hs
    case h_1 l outcome hpc =>
      cases hs
      apply h.setPc (.done outcome) rfl
      · intro m hm
        cases hm
      · exact fun i d _ => hkeep i d
    case h_2 => cases hs
  | drop k fd =>
    simp only [Fallback.step] at hs
    split at hs
    case h_1 l hl =>
      split_ifs at hs with hfree
      cases hs
      exact h
    case h_2 => cases hs

theorem positioned (h : system.ReachableBy Apart s) : Positioned s := by
  apply h.invariant_with (J := Exclusive) (fun s hs => exclusive hs.reachable)
  · intro s hs j b hb
    rw [hs.sections] at hb
    cases hb
  · intro s a t he hp hc hs
    exact hp.step he hc hs

/-- An atomic `pread` or `pwrite` at the Operation's own offset, of which the kernel transfers `n`
elements. -/
def atomic (op : Operation) (n : ℕ) (content : List UInt8) :
    Option (Operation.Returned × List UInt8) :=
  if op.offset < 0 then none
  else match op.opcode with
  | .read =>
    if n ≤ op.nbytes then some (.data (OpenFile.pread content op.offset.toNat n), content) else none
  | .write =>
    if n ≤ op.buffer.length then
      some (.count n, OpenFile.pwrite content op.offset.toNat (op.buffer.take n))
    else none
  | _ => none

theorem transfer_eq_atomic {op : Operation} {f : OpenFile UInt8} (n : ℕ) (hoffset : 0 ≤ op.offset)
    (hpos : f.pos = op.offset.toNat) :
    (transfer op n f).map (fun r => (r.1, r.2.content)) = atomic op n f.content := by
  rw [atomic, if_neg (Int.not_lt.mpr hoffset)]
  unfold transfer
  cases op.opcode with
  | read =>
    simp only [← hpos]
    split_ifs
    · rfl
    · rfl
  | write =>
    simp only [← hpos]
    split_ifs
    · rfl
    · rfl
  | fsync => rfl
  | fdsync => rfl
  | noop => rfl

/-- Every read or write that comes next does what one atomic `pread` or `pwrite` does now. -/
def TransfersAtomically (s : Fallback) : Prop :=
  ∀ (j n : ℕ) (b : Section) (t : Fallback), s.sections[j]? = some b →
    s.step (.transfer j n) = some t →
      ∃ l returned content, atomic b.op n (s.files b.op.fileno).content = some (returned, content) ∧
        t.sections[j]? = some { b with pc := .release l (.ok returned) } ∧
        ∀ fd, (t.files fd).content =
          if fd = b.op.fileno then content else (s.files fd).content

theorem Positioned.transfersAtomically (h : Positioned s) : s.TransfersAtomically := by
  intro j n b t hb hs
  obtain ⟨d, hd, hs⟩ := onSection_eq_some hs
  rw [hb] at hd
  cases hd
  split at hs
  case h_1 l hpc =>
    obtain ⟨r, hr, hs⟩ := Option.map_eq_some_iff.mp hs
    cases hs
    obtain ⟨hoffset, hpos⟩ := h j b hb ⟨l, hpc⟩
    have hatomic := transfer_eq_atomic n hoffset hpos
    rw [hr] at hatomic
    refine ⟨l, r.1, r.2.content, hatomic.symm, Table.getElem?_set_self hb _, fun fd => ?_⟩
    show (Function.update s.files b.op.fileno r.2 fd).content = _
    by_cases hfd : fd = b.op.fileno
    · rw [if_pos hfd, hfd, Function.update_self]
    · rw [if_neg hfd, Function.update_of_ne hfd]
  case h_2 => cases hs

/-- In every run in which no Context moves a position that a thread of another one has placed, each
read and write is one at the Operation's own offset. -/
theorem fallback_atomic {s : Fallback} (h : system.ReachableBy Apart s) : s.TransfersAtomically :=
  (positioned h).transfersAtomically

/-- Two reads of two bytes, at 4 and at 0, through Contexts `k` and `k'`. -/
def twoReads (k k' : CtxId) : List Action :=
  [.enter k (.read 2 3 4), .enter k' (.read 2 3 0), .lookup 0, .lookup 1, .acquire 0, .seekStart 0,
    .seek 0]

def eightBytes : Fallback := .new fun _ => ⟨[0, 1, 2, 3, 4, 5, 6, 7], 0⟩

/-- Through one Context the second read waits for the lock. -/
theorem fallback_atomic_shared :
    ∃ s, system.exec eightBytes (twoReads 0 0) = some s ∧ s.step (.acquire 1) = none ∧
      s.TransfersAtomically := by
  have hrun : ((system.exec eightBytes (twoReads 0 0)).any fun s =>
      (s.step (.acquire 1)).isNone) = true := by decide +kernel
  have hmeets : system.Meets Apart eightBytes (twoReads 0 0) := by decide +kernel
  obtain ⟨s, hexec, hblocked⟩ := (Option.any_eq_true _ _).mp hrun
  exact ⟨s, hexec, Option.isNone_iff_eq_none.mp hblocked,
    fallback_atomic (.exec (.init (new_init _)) hmeets hexec)⟩

/-- Through two Contexts it goes ahead, and the first one reads what stands at 2. -/
theorem fallback_misplaced :
    ∃ s t, system.exec eightBytes
      (twoReads 0 1 ++ [.acquire 1, .seekStart 1, .seek 1, .transfer 1 2])
        = some s ∧ s.step (.transfer 0 2) = some t ∧
      t.sections[0]? = some { ctx := 0, op := .read 2 3 4, pc := .release 0 (.ok (.data [2, 3])) } ∧
      atomic (.read 2 3 4) 2 (s.files 3).content = some (.data [4, 5], [0, 1, 2, 3, 4, 5, 6, 7]) ∧
      ¬s.TransfersAtomically := by
  have hrun : ((system.exec eightBytes
      (twoReads 0 1 ++ [.acquire 1, .seekStart 1, .seek 1, .transfer 1 2])).any fun s =>
        (s.step (.transfer 0 2)).any fun t => decide (
          s.sections[0]? = some { ctx := 0, op := .read 2 3 4, pc := .transfer 0 } ∧
          t.sections[0]? =
            some { ctx := 0, op := .read 2 3 4, pc := .release 0 (.ok (.data [2, 3])) } ∧
          (s.files 3).content = [0, 1, 2, 3, 4, 5, 6, 7])) = true := by
    decide +kernel
  obtain ⟨s, hexec, hstep⟩ := (Option.any_eq_true _ _).mp hrun
  obtain ⟨t, hs, hdecide⟩ := (Option.any_eq_true _ _).mp hstep
  obtain ⟨hb, hread, hcontent⟩ := of_decide_eq_true hdecide
  have hatomic : atomic (.read 2 3 4) 2 (s.files 3).content =
      some (.data [4, 5], [0, 1, 2, 3, 4, 5, 6, 7]) := by
    rw [hcontent]
    rfl
  refine ⟨s, t, hexec, hs, hread, hatomic, fun hall => ?_⟩
  obtain ⟨l, returned, content, hown, hpc, -⟩ := hall 0 2 _ t hb hs
  rw [show atomic (Operation.read 2 3 4) 2 (s.files (Operation.read 2 3 4).fileno).content =
    some (.data [4, 5], [0, 1, 2, 3, 4, 5, 6, 7]) from hatomic] at hown
  obtain ⟨rfl, -⟩ := Prod.mk.inj (Option.some.inj hown)
  rw [hread] at hpc
  have hpc := congrArg Section.pc (Option.some.inj hpc)
  cases hpc

end Fallback

end Caio.PythonAio
