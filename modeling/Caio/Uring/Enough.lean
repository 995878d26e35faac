import Caio.Uring.Wait

namespace Caio.Uring

namespace Context

variable {k k' : Context} {min : ℕ}

/-- Cancel sentinels cannot make up `min` entries of the ring. -/
structure EnoughReal (k : Context) (min : ℕ) : Prop where
  /-- Not those that are in the ring, -/
  ring : min ≤ k.cq.queue.length → min ≤ (completions k.cq.queue).length
  /-- nor those in the backlog, which the first `io_uring_enter` moves to the slots that pending
  cancel requests have left, -/
  backlog : k.cq.queue.length < min → min ≤ 2 ^ k.cq.size.log →
    min ≤ k.cq.queue.length + k.backlog.length →
    min ≤ (completions (k.cq.queue ++ k.backlog.take
      (2 ^ k.cq.size.log - k.cq.queue.length - k.pending.count cancelUserData))).length
  /-- nor those that are still to come. -/
  pending : k.cq.queue.length + k.backlog.length < min → min ≤ 2 ^ k.cq.size.log →
    min ≤ k.carried.length → cancelUserData ∉ k.carried

/-- What is left of it after an `io_uring_enter`. -/
structure Covered (k : Context) (min : ℕ) : Prop where
  ring : min ≤ k.cq.queue.length → min ≤ (completions k.cq.queue).length
  pending : k.cq.queue.length < min → min ≤ 2 ^ k.cq.size.log →
    k.backlog = [] ∧ (min ≤ k.carried.length → cancelUserData ∉ k.carried)

theorem completions_length_of_not_mem {es : List Cqe}
    (h : cancelUserData ∉ es.map Cqe.userData) : (completions es).length = es.length := by
  have hlen := length_completions_add_sentinels es
  rw [sentinels_eq_count, List.count_eq_zero_of_not_mem h] at hlen
  exact hlen

theorem completions_take_le (es : List Cqe) (m n : ℕ) :
    (completions (es.take m)).length ≤ (completions (es.take n)).length + (m - n) := by
  have hsplit : es.take m = (es.take m).take n ++ (es.take m).drop n :=
    (List.take_append_drop _ _).symm
  have hfirst : ∃ fs, es.take n = (es.take m).take n ++ fs := by
    rw [List.take_take]
    obtain ⟨fs, hfs⟩ := List.take_prefix_take_left (l := es) (Nat.min_le_left n m)
    exact ⟨fs, hfs.symm⟩
  obtain ⟨fs, hfs⟩ := hfirst
  have hdrop := length_completions_add_sentinels ((es.take m).drop n)
  rw [hsplit, hfs, completions_append, completions_append, List.length_append, List.length_append]
  rw [List.length_drop, List.length_take] at hdrop
  omega

theorem refill_full (r : CqRing) (es : List Cqe) :
    (refill r es).1.size = r.size ∧ ((refill r es).2 = [] ∨ (refill r es).1.Full) := by
  induction es generalizing r with
  | nil => exact ⟨rfl, .inl rfl⟩
  | cons e es ih =>
    unfold refill
    split_ifs with h
    · exact ⟨rfl, .inr h⟩
    · exact ih (r.post e)

theorem moveBacklog_queue (hk : k.RingsOk) :
    k.moveBacklog.cq.queue = (k.cq.queue ++ k.backlog).take (2 ^ k.cq.size.log) ∧
      k.moveBacklog.backlog = (k.cq.queue ++ k.backlog).drop (2 ^ k.cq.size.log) := by
  obtain ⟨happ, hroom⟩ := refill_spec k.cq k.backlog hk.cqRoom
  obtain ⟨hsize, hrest⟩ := refill_full k.cq k.backlog
  rw [← CqRing.queue_length, hsize] at hroom
  show (refill k.cq k.backlog).1.queue = _ ∧ (refill k.cq k.backlog).2 = _
  rw [← happ]
  rcases hrest with hempty | hfull
  · rw [hempty, List.append_nil, List.take_of_length_le hroom, List.drop_of_length_le hroom]
    exact ⟨rfl, rfl⟩
  · rw [CqRing.full_iff, hsize] at hfull
    have heq := Nat.le_antisymm hroom hfull
    rw [← heq, List.take_left, List.drop_left]
    exact ⟨rfl, rfl⟩

theorem Posted.carried_perm {xs ys : List Cqe} (h : Posted k k' xs ys) :
    k'.carried.Perm k.carried := by
  refine List.perm_iff_count.mpr fun p => ?_
  have hcount := h.pending.count_eq p
  simp only [carried_eq, h.queue, h.backlog, List.map_append, List.count_append] at hcount ⊢
  omega

theorem Posted.sentinels_le {xs ys : List Cqe} (h : Posted k k' xs ys) :
    sentinels xs ≤ k.pending.count cancelUserData := by
  have hcount := h.pending.count_eq cancelUserData
  rw [List.count_append, List.count_append, ← sentinels_eq_count] at hcount
  omega

theorem EnoughReal.entered (h : k.EnoughReal min) {xs ys : List Cqe} (hposted : Posted k k' xs ys)
    (hk : k'.RingsOk) (hshort : k.cq.queue.length < min) : k'.moveBacklog.Covered min := by
  obtain ⟨hqueue, hbacklog⟩ := moveBacklog_queue hk
  have hcarried : k'.moveBacklog.carried.Perm k.carried :=
    (moveBacklog_carried hk) ▸ hposted.carried_perm
  have hsize : k'.moveBacklog.cq.size = k.cq.size :=
    (refill_full k'.cq k'.backlog).1.trans hposted.size
  have hroom := hk.cqRoom
  rw [← CqRing.queue_length, hposted.size, hposted.queue, List.length_append] at hroom
  rw [hposted.size, hposted.queue, hposted.backlog] at hqueue hbacklog
  have hlen : k'.moveBacklog.cq.queue.length ≤ k.carried.length := by
    rw [← hcarried.length_eq, carried_eq, List.length_append, List.length_append, List.length_map]
    omega
  by_cases hcap : min ≤ 2 ^ k.cq.size.log
  · by_cases hmany : min ≤ k.cq.queue.length + k.backlog.length
    · -- what the ring held and what the backlog brings
      have henough := h.backlog hshort hcap hmany
      have hreal := length_completions_add_sentinels xs
      have hfew := hposted.sentinels_le
      have htake := completions_take_le k.backlog
        (2 ^ k.cq.size.log - k.cq.queue.length - k.pending.count cancelUserData)
        (2 ^ k.cq.size.log - k.cq.queue.length - xs.length)
      have hsplit : k'.moveBacklog.cq.queue = k.cq.queue ++ xs ++
          (k.backlog.take (2 ^ k.cq.size.log - k.cq.queue.length - xs.length) ++
            ys.take (2 ^ k.cq.size.log - k.cq.queue.length - xs.length - k.backlog.length)) := by
        rw [hqueue, List.take_append, List.take_of_length_le (by rwa [List.length_append]),
          List.length_append, ← Nat.sub_sub, List.take_append]
      have hmin : min ≤ (completions k'.moveBacklog.cq.queue).length := by
        simp only [hsplit, completions_append, List.length_append] at henough ⊢
        omega
      refine ⟨fun _ => hmin, fun hlt => ?_⟩
      have := length_completions_add_sentinels k'.moveBacklog.cq.queue
      omega
    · have hnone := h.pending (Nat.lt_of_not_le hmany) hcap
      refine ⟨fun hle => ?_, fun hlt _ => ⟨?_, fun hle hmem => ?_⟩⟩
      · have hno := hnone (hle.trans hlen)
        rw [completions_length_of_not_mem]
        · exact hle
        · intro hmem
          apply hno
          apply hcarried.subset
          rw [carried_eq]
          exact List.mem_append_left _ (List.mem_append_right _ hmem)
      · rw [hbacklog]
        apply List.drop_of_length_le
        rw [hqueue, List.length_take] at hlt
        omega
      · exact hnone (hcarried.length_eq ▸ hle) (hcarried.subset hmem)
  · refine ⟨fun hle => ?_, fun _ hle => absurd (hsize ▸ hle) hcap⟩
    rw [hqueue, List.length_take] at hle
    omega

theorem Covered.posted (h : k.Covered min) {xs ys : List Cqe} (hposted : Posted k k' xs ys)
    (hk : k'.RingsOk) (hys : ys = [] ∨ k.cq.Full ∨ k.backlog ≠ []) : k'.Covered min := by
  have hroom := hk.cqRoom
  have hqueue := congrArg List.length hposted.queue
  rw [← CqRing.queue_length, hposted.size] at hroom
  rw [List.length_append] at hqueue
  have hlen : k'.cq.queue.length ≤ k'.carried.length := by
    rw [carried_eq, List.length_append, List.length_append, List.length_map]
    omega
  refine ⟨fun hle => ?_, fun hlt hcap => ?_⟩
  · by_cases hshort : k.cq.queue.length < min
    · obtain ⟨-, hnone⟩ := h.pending hshort (by omega)
      have hno := hnone (hposted.carried_perm.length_eq ▸ hle.trans hlen)
      rw [completions_length_of_not_mem]
      · exact hle
      · intro hmem
        apply hno
        apply hposted.carried_perm.subset
        rw [carried_eq]
        exact List.mem_append_left _ (List.mem_append_right _ hmem)
    · have := h.ring (Nat.le_of_not_lt hshort)
      rw [hposted.queue, completions_append, List.length_append]
      omega
  · rw [hposted.size] at hcap
    obtain ⟨hbacklog, hnone⟩ := h.pending (by omega) hcap
    have hys : ys = [] := by
      rcases hys with hys | hfull | hne
      · exact hys
      · rw [CqRing.full_iff] at hfull
        omega
      · exact absurd hbacklog hne
    refine ⟨by rw [hposted.backlog, hbacklog, hys]; rfl, fun hle hmem => ?_⟩
    exact hnone (hposted.carried_perm.length_eq ▸ hle) (hposted.carried_perm.subset hmem)

theorem Covered.moveBacklog (h : k.Covered min) (hk : k.RingsOk) : k.moveBacklog.Covered min := by
  obtain ⟨hqueue, -⟩ := moveBacklog_queue hk
  have hsize : k.moveBacklog.cq.size = k.cq.size := (refill_full k.cq k.backlog).1
  have hroom := hk.cqRoom
  rw [← CqRing.queue_length] at hroom
  rw [List.take_append, List.take_of_length_le hroom] at hqueue
  have hlen : k.cq.queue.length ≤ k.moveBacklog.cq.queue.length := by
    rw [hqueue, List.length_append]
    exact Nat.le_add_right _ _
  by_cases hshort : k.cq.queue.length < min ∧ min ≤ 2 ^ k.cq.size.log
  · obtain ⟨hbacklog, -⟩ := h.pending hshort.1 hshort.2
    have hsame : k.moveBacklog = k := by
      rw [Context.moveBacklog, hbacklog]
      simp only [refill, ← hbacklog]
    rwa [hsame]
  · refine ⟨fun hle => ?_, fun hlt hcap => absurd ⟨by omega, hsize ▸ hcap⟩ hshort⟩
    have hmoved := (moveBacklog_ringsOk hk).cqRoom
    rw [← CqRing.queue_length, hsize] at hmoved
    have := h.ring (by omega)
    rw [hqueue, completions_append, List.length_append]
    omega

end Context

namespace World

variable {s t u v : World} {c : CtxId} {minRequests : UInt32} {deadline : Option Timespec}

/-- A Context on which an fsync is in the kernel and the CQE of a request to cancel it is the only
entry of the completion ring. -/
def sentinelFirst : World :=
  { initial with
    heap := { initial.heap with ctxRefs := fun _ => 1 }
    ctxs := fun _ =>
      { uringFd := 3, sqpoll := false
        sq := ⟨.two, true, 0, 0, fun _ => 0, fun _ => {}⟩
        cq := ⟨.four, 0, 1, fun _ => ⟨cancelUserData, 0⟩⟩
        inKernel := [{ opcode := .fsync, userData := 16 }] } }

end World

end Caio.Uring
