import Caio.Uring.Submit

namespace Caio.Uring

/-- The completion that a CQE stands for; a cancel sentinel stands for none. -/
def Cqe.completion (e : Cqe) : Option (OpPtr × Int32) :=
  if e.userData = cancelUserData then none else some (e.userData, e.res)

def completions (es : List Cqe) : List (OpPtr × Int32) := es.filterMap Cqe.completion

@[simp] theorem completions_nil : completions [] = [] := rfl

@[simp] theorem completions_append (es fs : List Cqe) :
    completions (es ++ fs) = completions es ++ completions fs := List.filterMap_append ..

theorem completions_cons_sentinel {e : Cqe} (es : List Cqe) (h : e.userData = cancelUserData) :
    completions (e :: es) = completions es := by
  simp [completions, Cqe.completion, h]

theorem completions_cons_real {e : Cqe} (es : List Cqe) (h : e.userData ≠ cancelUserData) :
    completions (e :: es) = (e.userData, e.res) :: completions es := by
  simp [completions, Cqe.completion, h]

/-- A `user_data` that is an Operation's address. -/
def isOperation (p : OpPtr) : Bool := p != cancelUserData

theorem map_fst_completions (es : List Cqe) :
    (completions es).map Prod.fst = (es.map Cqe.userData).filter isOperation := by
  induction es with
  | nil => rfl
  | cons e es ih =>
    by_cases h : e.userData = cancelUserData
    · have hop : isOperation e.userData = false := by simp [isOperation, h]
      rw [completions_cons_sentinel es h, List.map_cons, List.filter_cons, hop, ih]
      rfl
    · have hop : isOperation e.userData = true := by simp [isOperation, h]
      rw [completions_cons_real es h, List.map_cons, List.map_cons, List.filter_cons, hop, ih]
      rfl

theorem completions_eq_map {es : List Cqe} (h : ∀ e ∈ es, e.userData ≠ cancelUserData) :
    completions es = es.map fun e => (e.userData, e.res) := by
  induction es with
  | nil => rfl
  | cons e es ih =>
    rw [completions_cons_real _ (h e List.mem_cons_self), List.map_cons,
      ih fun d hd => h d (List.mem_cons_of_mem _ hd)]

theorem ne_cancel_of_mem_completions {es : List Cqe} {x : OpPtr × Int32}
    (h : x ∈ completions es) : x.1 ≠ cancelUserData := by
  obtain ⟨e, -, he⟩ := List.mem_filterMap.mp h
  obtain ⟨hne, he⟩ := Option.ite_none_left_eq_some.mp he
  cases he
  exact hne

structure CqRing where
  size : RingSize
  /-- `*cq_head`, advanced by `uring_drain_cq` only -/
  head : UInt32
  /-- `*cq_tail`, advanced by the kernel only -/
  tail : UInt32
  cqes : UInt32 → Cqe

namespace CqRing

def queue (r : CqRing) : List Cqe := RingBuffer.window r.size r.cqes r.head r.tail

def Full (r : CqRing) : Prop := r.size.entries ≤ r.tail - r.head

instance (r : CqRing) : Decidable r.Full := inferInstanceAs (Decidable (_ ≤ _))

/-- The kernel fills the slot at `cq_tail` and advances it. -/
def post (r : CqRing) (e : Cqe) : CqRing :=
  { r with cqes := Function.update r.cqes (r.size.slot r.tail) e, tail := r.tail + 1 }

def commit (r : CqRing) (head : UInt32) : CqRing := { r with head }

theorem lt_of_not_full {r : CqRing} (h : ¬r.Full) : (r.tail - r.head).toNat < 2 ^ r.size.log :=
  (RingBuffer.lt_entries_iff _).mp (UInt32.not_le.mp h)

theorem window_post {r : CqRing} (e : Cqe) (h : ¬r.Full) {head : UInt32}
    (hle : (r.tail - head).toNat ≤ (r.tail - r.head).toNat) :
    RingBuffer.window r.size (r.post e).cqes head (r.post e).tail =
      RingBuffer.window r.size r.cqes head r.tail ++ [e] :=
  RingBuffer.window_push _ e (hle.trans_lt (lt_of_not_full h))

theorem queue_post {r : CqRing} (e : Cqe) (h : ¬r.Full) : (r.post e).queue = r.queue ++ [e] :=
  window_post e h le_rfl

end CqRing

/-- The locals of the scanning loop; `batch` is `ops[0..count)` with `results[0..count)`. -/
structure Scan where
  head : UInt32
  count : UInt32 := 0
  batch : List (OpPtr × Int32) := []

/-- The stores to an Operation for a result, with its `Py_CLEAR(op->context)`. -/
def Heap.finalise (h : Heap) (p : OpPtr) (res : Int32) : Heap :=
  (h.xdecrefCtx (h.ops p).context).modify p fun op => op.complete res

/-- The loop body on the CQE at the local head. -/
def scanOne (h : Heap) (s : Scan) (e : Cqe) : Heap × Scan :=
  if e.userData = cancelUserData then (h, { s with head := s.head + 1 })
  else
    (h.finalise e.userData e.res,
      { head := s.head + 1, count := s.count + 1, batch := s.batch ++ [(e.userData, e.res)] })

def Scan.More (s : Scan) (tail max : UInt32) : Prop := s.head ≠ tail ∧ s.count < max

instance (s : Scan) (tail max : UInt32) : Decidable (s.More tail max) :=
  inferInstanceAs (Decidable (_ ∧ _))

@[simp] theorem scanOne_head (h : Heap) (s : Scan) (e : Cqe) :
    (scanOne h s e).2.head = s.head + 1 := by
  unfold scanOne
  split <;> rfl

theorem scanOne_batch (h : Heap) (s : Scan) (e : Cqe) :
    (scanOne h s e).2.batch = s.batch ++ completions [e] := by
  unfold scanOne
  split_ifs with he
  · rw [completions_cons_sentinel _ he, completions_nil, List.append_nil]
  · rw [completions_cons_real _ he, completions_nil]

@[simp] theorem finalise_ops_self (h : Heap) (p : OpPtr) (res : Int32) :
    (h.finalise p res).ops p = (h.ops p).complete res := by
  simp [Heap.finalise]

theorem finalise_ops_ne (h : Heap) {p q : OpPtr} (res : Int32) (hne : q ≠ p) :
    (h.finalise p res).ops q = h.ops q := by
  rw [Heap.finalise, Heap.modify_ops_ne _ _ hne, Heap.xdecrefCtx_ops]

end Caio.Uring
