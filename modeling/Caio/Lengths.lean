import Caio.LinuxAio.Length
import Caio.ThreadAio.Execute
import Caio.ThreadAio.Length
import Caio.Uring.Length

namespace Caio

/-- The kernel gets the length itself: on linux_uring exactly below 2^32, on thread_aio exactly
below 2^31, and on linux_aio always. -/
theorem lengths_handed_iff {n : ℕ} (hn : n < 2 ^ 63) :
    (∀ len, Uring.World.Handed n len → (len = n ↔ n < 2 ^ 32)) ∧
    (∀ len, LinuxAio.World.Handed n len → len = n) ∧
    ∀ len, ThreadAio.World.Handed n len → (len = n ↔ n < 2 ^ 31) := by
  refine ⟨fun len h => ?_, fun len h => ?_, fun len h => ?_⟩
  · rw [h.len_eq]
    omega
  · rw [h.len_eq]
    omega
  · rw [h.len_eq]
    exact Width.sizeOfInt_toNat_eq_iff hn

namespace Uring.World

/-- A read of `nbytes` bytes is submitted to a new Context. -/
def requestRun (nbytes : ℕ) : List Action :=
  [.newContext 0 context, .newRead 16 nbytes 5 0 4096, .submit 0 [.operation 16]]

theorem handed_of_run {n len : ℕ} (hrun : ((system.exec initial (requestRun n)).any fun s =>
    (s.ctxs 0).issued.any fun e => e.userData == 16 && e.len.toNat == len) = true) :
    Handed n len := by
  obtain ⟨t, ht, hissued⟩ := (Option.any_eq_true _ _).mp hrun
  obtain ⟨e, he, hlen⟩ := List.any_eq_true.mp hissued
  rw [Bool.and_eq_true, beq_iff_eq, beq_iff_eq] at hlen
  obtain ⟨u, hu, ht⟩ := Option.bind_eq_some_iff.mp ht
  obtain ⟨s, hs, ht⟩ := Option.bind_eq_some_iff.mp ht
  have hreach : system.Reachable s :=
    .step (.step (.init initial_init) trivial hu) trivial hs
  refine ⟨s, t, 16, [.submit 0 [.operation 16]], hreach, ?_, ?_, ht, 0, e, he, hlen⟩
  · obtain ⟨-, hs⟩ := Option.ite_none_left_eq_some.mp hs
    obtain ⟨-, hs⟩ := Option.ite_none_right_eq_some.mp hs
    cases hs
    refine .inl ⟨5, 0, 4096, ?_⟩
    exact Function.update_self (16 : OpPtr) (AIOOperation.read n 5 0 4096) u.heap.ops
  · intro a ha hcreates
    rw [List.mem_singleton.mp ha] at hcreates
    cases hcreates

end Uring.World

namespace LinuxAio.World

/-- New Operations that read `nbytes` bytes. -/
def reading (nbytes : ℕ) : World :=
  { new with heap := ⟨fun p => .read p (UInt64.ofNat nbytes) 3 0 8192, fun _ => 1⟩ }

theorem reading_init (nbytes : ℕ) : Init (reading nbytes) :=
  ⟨fun _ => rfl, fun _ => rfl, rfl, rfl, rfl, rfl, rfl, rfl, rfl⟩

theorem handed_reading {n : ℕ} (hn : n < 2 ^ 64) : Handed n n := by
  refine ⟨reading n, reading n, 16, [], .init (reading_init n), .inl ⟨16, 3, 0, 8192, rfl⟩, rfl,
    0, [.operation 16], .ok 1, List.mem_cons_self, ?_⟩
  show (UInt64.ofNat n).toNat = n
  exact UInt64.toNat_ofNat_of_lt' hn

end LinuxAio.World

namespace ThreadAio.World

/-- New Operations that read `nbytes` bytes. -/
def reading (nbytes : ℕ) : World :=
  { new 1 with heap := ⟨fun _ => .read nbytes 3 0 8192 4096, fun _ => 1⟩ }

theorem reading_init (nbytes : ℕ) : Init (reading nbytes) :=
  ⟨fun _ => rfl, fun _ => rfl, fun _ => rfl, fun _ => rfl, fun _ => rfl, fun _ => rfl, rfl, rfl⟩

/-- One of them is read by a worker, up to the end of its system call. -/
def readingRun : List Action := [.submit 0 [.operation 7], .pop 0, .take 0, .syscall 0 0 0]

theorem handed_reading {n : ℕ} (count : Int32)
    (hrun : ((system.exec (reading n) readingRun).any fun s => decide (
      s.jobs[0]?.map Job.op = some 7 ∧
      Journal.entries s.log 0 = [.pop, .syscall (.pread 3 8192 count 0)])) = true) :
    Handed n count.toInt64.toUInt64.toNat := by
  obtain ⟨t, ht, hlog⟩ := (Option.any_eq_true _ _).mp hrun
  obtain ⟨hjob, hlog⟩ := of_decide_eq_true hlog
  obtain ⟨b, hb, hop⟩ := Option.map_eq_some_iff.mp hjob
  refine ⟨reading n, t, 7, readingRun, .init (reading_init n), .inl ⟨3, 0, 8192, 4096, rfl⟩, ht, 0,
    b, .pread 3 8192 count 0, hb, hop, ?_, rfl⟩
  rw [hlog]
  exact List.mem_cons_of_mem _ List.mem_cons_self

end ThreadAio.World

theorem lengths_handed_page :
    (Uring.World.Handed 4096 4096 ∧ LinuxAio.World.Handed 4096 4096 ∧
      ThreadAio.World.Handed 4096 4096) ∧
    (∀ len, Uring.World.Handed 4096 len → (len = 4096 ↔ 4096 < 2 ^ 32)) ∧
    (∀ len, LinuxAio.World.Handed 4096 len → len = 4096) ∧
    ∀ len, ThreadAio.World.Handed 4096 len → (len = 4096 ↔ 4096 < 2 ^ 31) := by
  refine ⟨⟨?_, ?_, ?_⟩, lengths_handed_iff (by decide)⟩
  · exact Uring.World.handed_of_run (by decide +kernel)
  · exact LinuxAio.World.handed_reading (by decide)
  · exact ThreadAio.World.handed_reading 4096 (by decide +kernel)

/-- A read of 4 GiB is an empty one on linux_uring and on thread_aio, and the kernel's answer to it
is a success; a read of 2 GiB on thread_aio becomes one of almost 2^64 bytes. -/
theorem lengths_truncated :
    Uring.World.Handed (2 ^ 32) 0 ∧
    (∃ s, Uring.World.system.exec .initial (Uring.World.requestRun (2 ^ 32) ++
      [.kernel 0 .consume, .kernel 0 (.complete 0 0 false), .processEvents 0 0 0 0 []]) = some s ∧
      (s.heap.ops 16).done = true ∧ (s.heap.ops 16).error = 0 ∧ (s.heap.ops 16).result = 0) ∧
    ThreadAio.World.Handed (2 ^ 32) 0 ∧
    ThreadAio.World.Handed (2 ^ 31) (2 ^ 64 - 2 ^ 31) := by
  refine ⟨?_, ?_, ?_, ?_⟩
  · exact Uring.World.handed_of_run (by decide +kernel)
  · have hrun : ((Uring.World.system.exec .initial (Uring.World.requestRun (2 ^ 32) ++
        [.kernel 0 .consume, .kernel 0 (.complete 0 0 false),
          .processEvents 0 0 0 0 []])).any fun s => decide ((s.heap.ops 16).done = true ∧
            (s.heap.ops 16).error = 0 ∧ (s.heap.ops 16).result = 0)) = true := by decide +kernel
    obtain ⟨s, hs, hop⟩ := (Option.any_eq_true _ _).mp hrun
    exact ⟨s, hs, of_decide_eq_true hop⟩
  · exact ThreadAio.World.handed_reading 0 (by decide +kernel)
  · exact ThreadAio.World.handed_reading (n := 2 ^ 31) (-2 ^ 31) (by decide +kernel)

end Caio
