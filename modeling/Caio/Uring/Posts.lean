import Mathlib.Data.List.Perm.Subperm
import Caio.Uring.Lifecycle

namespace Caio.Uring

def sentinels (es : List Cqe) : ℕ := es.countP fun e => e.userData == cancelUserData

theorem length_completions_add_sentinels (es : List Cqe) :
    (completions es).length + sentinels es = es.length := by
  induction es with
  | nil => rfl
  | cons e es ih =>
    by_cases he : e.userData = cancelUserData
    · rw [completions_cons_sentinel _ he, sentinels, List.countP_cons_of_pos (by simpa using he),
        List.length_cons, ← ih, sentinels, Nat.add_assoc]
    · rw [completions_cons_real _ he, sentinels, List.countP_cons_of_neg (by simpa using he),
        List.length_cons, List.length_cons, ← ih, sentinels, Nat.add_right_comm]

theorem sentinels_eq_count (es : List Cqe) :
    sentinels es = (es.map Cqe.userData).count cancelUserData := by
  rw [sentinels, List.count, List.countP_map]
  rfl

namespace CqRing

variable {r : CqRing}

@[simp] theorem queue_length (r : CqRing) : r.queue.length = (r.tail - r.head).toNat :=
  RingBuffer.window_length ..

theorem full_iff : r.Full ↔ 2 ^ r.size.log ≤ r.queue.length := by
  rw [Full, UInt32.le_iff_toNat_le, RingSize.entries_toNat, queue_length]

end CqRing

namespace Context

variable {k k' k'' : Context} {xs ys xs' ys' : List Cqe}

def pending (k : Context) : List OpPtr :=
  (k.sq.queue k.sq.tail).map Sqe.userData ++ k.inKernel.map Sqe.userData

theorem carried_eq (k : Context) :
    k.carried = k.pending ++ k.cq.queue.map Cqe.userData ++ k.backlog.map Cqe.userData := rfl

/-- Between `k` and `k'` the kernel has posted `xs` to the ring and `ys` to the backlog. -/
structure Posted (k k' : Context) (xs ys : List Cqe) : Prop where
  size : k'.cq.size = k.cq.size
  queue : k'.cq.queue = k.cq.queue ++ xs
  backlog : k'.backlog = k.backlog ++ ys
  pending : (k'.pending ++ xs.map Cqe.userData ++ ys.map Cqe.userData).Perm k.pending

theorem Posted.refl (k : Context) : Posted k k [] [] :=
  ⟨rfl, (List.append_nil _).symm, (List.append_nil _).symm, by simp⟩

theorem Posted.trans (h : Posted k k' xs ys) (h' : Posted k' k'' xs' ys') :
    Posted k k'' (xs ++ xs') (ys ++ ys') := by
  refine ⟨h'.size.trans h.size, ?_, ?_, ?_⟩
  · rw [h'.queue, h.queue, List.append_assoc]
  · rw [h'.backlog, h.backlog, List.append_assoc]
  · refine List.perm_iff_count.mpr fun p => ?_
    have hold := h.pending.count_eq p
    have hnew := h'.pending.count_eq p
    simp only [List.map_append, List.count_append] at hold hnew ⊢
    omega

end Context

namespace World

variable {s t : World} {c : CtxId} {as bs : List KernelStep}

end World

end Caio.Uring
