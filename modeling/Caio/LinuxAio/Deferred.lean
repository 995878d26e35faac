import Mathlib.Data.List.Perm.Subperm
import Caio.LinuxAio.Submit

namespace Caio.LinuxAio

/-- The adapter, with the objects that its calls change. -/
structure Adapter where
  heap : Heap
  self : CtxId
  context : AIOContext
  futures : FutureId → Future
  pending : List (OpPtr × FutureId) := []
  submitScheduled : Bool := false

/-- The text of the exception for an Operation that was refused or skipped. -/
def notSubmitted : PyErr := .osError "Operation was not submitted"

/-- `if not fut.done(): fut.set_exception(exc)` for the entries of a list. -/
def setExceptions (exc : PyErr) :
    List (OpPtr × FutureId) → (FutureId → Future) → FutureId → Future
  | [], futures => futures
  | e :: es, futures => setExceptions exc es <|
      if (futures e.2).done then futures else Function.update futures e.2 (.exception exc)

namespace Adapter

/-- The entries whose futures are not done when the callback runs. -/
def live (a : Adapter) : List (OpPtr × FutureId) := a.pending.filter fun e => !(a.futures e.2).done

/-- `_deferred_submit`, with the Operations that reached the kernel. -/
def deferredSubmit (a : Adapter) (ioSubmit : Except Int32 ℕ) : Adapter × List OpPtr :=
  let pending := a.live
  let a := { a with pending := [], submitScheduled := false }
  if pending = [] then (a, [])
  else
    let s := submit a.heap a.self a.context (pending.map fun e => .operation e.1) ioSubmit
    let futures :=
      match s.ret with
      | .error exc => setExceptions exc pending a.futures
      | .ok accepted => setExceptions notSubmitted (pending.drop accepted) a.futures
    ({ a with heap := s.heap, futures }, s.accepted)

def claimed (a : Adapter) : List OpPtr :=
  (claimLoop a.self a.context.fileno (a.live.map Prod.fst) a.heap).2

/-- The call has handed entry `i` to the kernel: its Operation has reached it, and no earlier entry
names the same Operation. -/
def Handed (a : Adapter) (reached : List OpPtr) (i : ℕ) : Prop :=
  ∃ e, a.live[i]? = some e ∧ e.1 ∈ reached ∧ e.1 ∉ (a.live.take i).map Prod.fst

/-- Exactly the futures of entries that were not handed to the kernel are failed. -/
structure Attributes (a : Adapter) (ioSubmit : Except Int32 ℕ) : Prop where
  refused : ∀ i e, a.live[i]? = some e → ¬a.Handed (a.deferredSubmit ioSubmit).2 i →
    (a.deferredSubmit ioSubmit).1.futures e.2 = .exception notSubmitted
  others : ∀ f, (∀ i e, a.live[i]? = some e → e.2 = f → a.Handed (a.deferredSubmit ioSubmit).2 i) →
    (a.deferredSubmit ioSubmit).1.futures f = a.futures f

end Adapter

theorem setExceptions_of_not_mem {exc : PyErr} {es : List (OpPtr × FutureId)}
    {futures : FutureId → Future} {f : FutureId} (hf : f ∉ es.map Prod.snd) :
    setExceptions exc es futures f = futures f := by
  induction es generalizing futures with
  | nil => rfl
  | cons e es ih =>
    rw [List.map_cons, List.mem_cons, not_or] at hf
    rw [setExceptions, ih hf.2]
    split
    · rfl
    · exact Function.update_of_ne hf.1 ..

theorem setExceptions_of_done {exc : PyErr} {es : List (OpPtr × FutureId)}
    {futures : FutureId → Future} {f : FutureId} (hf : (futures f).done = true) :
    setExceptions exc es futures f = futures f := by
  induction es generalizing futures with
  | nil => rfl
  | cons e es ih =>
    rw [setExceptions]
    by_cases he : (futures e.2).done = true
    · rw [if_pos he]
      exact ih hf
    · have hne : f ≠ e.2 := by
        rintro rfl
        exact he hf
      have hsame : Function.update futures e.2 (.exception exc) f = futures f :=
        Function.update_of_ne hne ..
      rw [if_neg he, ih (by rw [hsame]; exact hf), hsame]

theorem setExceptions_of_mem {exc : PyErr} {es : List (OpPtr × FutureId)}
    {futures : FutureId → Future} {f : FutureId} (hmem : f ∈ es.map Prod.snd)
    (hf : (futures f).done = false) : setExceptions exc es futures f = .exception exc := by
  induction es generalizing futures with
  | nil => cases hmem
  | cons e es ih =>
    rw [setExceptions]
    by_cases hfe : f = e.2
    · subst hfe
      have hset : Function.update futures e.2 (.exception exc) e.2 = .exception exc :=
        Function.update_self ..
      rw [if_neg (by rw [hf]; nofun), setExceptions_of_done (by rw [hset]; rfl), hset]
    · rw [List.map_cons, List.mem_cons, or_iff_right hfe] at hmem
      split
      · exact ih hmem hf
      · exact ih hmem (by rwa [Function.update_of_ne hfe])

namespace Adapter

variable {a : Adapter} {r : ℕ}

theorem live_not_done {e : OpPtr × FutureId} (h : e ∈ a.live) : (a.futures e.2).done = false := by
  simpa using (List.mem_filter.mp h).2

theorem deferredSubmit_spec (hctx : a.context.ctx ≠ 0) (hr : r ≤ a.claimed.length) :
    (a.deferredSubmit (.ok r)).2 = a.claimed.take r ∧
      (a.deferredSubmit (.ok r)).1.futures =
        setExceptions notSubmitted (a.live.drop r) a.futures := by
  obtain ⟨hret, haccepted⟩ := submitOps_accepted _ _ _ _ hr
  by_cases hlive : a.live = []
  · rw [claimed, hlive] at hr ⊢
    obtain rfl := Nat.le_zero.mp hr
    simp only [deferredSubmit, hlive]
    exact ⟨rfl, rfl⟩
  · have hops : a.live.map (fun e => Arg.operation e.1) =
        (a.live.map Prod.fst).map Arg.operation := (List.map_map ..).symm
    simp only [deferredSubmit, if_neg hlive, hops, submit_operations _ _ _ hctx, hret]
    exact ⟨haccepted, trivial⟩

theorem claimed_length_le (a : Adapter) : a.claimed.length ≤ a.live.length := by
  have hsub : a.claimed ⊆ a.live.map Prod.fst := fun p hp => (mem_claimed.mp hp).1
  have hle := (List.subperm_of_subset (claimed_nodup _) hsub).length_le
  rwa [List.length_map] at hle

theorem Handed.fresh {i : ℕ} (h : a.Handed (a.claimed.take r) i) :
    Fresh a.heap (a.live.map Prod.fst) i := by
  obtain ⟨e, he, hmem, hnew⟩ := h
  have hclaimed := mem_claimed.mp (List.mem_of_mem_take hmem)
  refine ⟨e.1, ?_, hclaimed.2, ?_⟩
  · rw [List.getElem?_map, he]
    rfl
  · rwa [← List.map_take]

/-- Without a skipped entry among the first `r` the entries handed over are the first `r`. -/
theorem handed_iff {i : ℕ} {e : OpPtr × FutureId} (he : a.live[i]? = some e)
    (hfresh : ∀ i < r, Fresh a.heap (a.live.map Prod.fst) i) :
    a.Handed (a.claimed.take r) i ↔ i < r := by
  have htake : a.claimed.take r = (a.live.map Prod.fst).take r := claimed_take hfresh
  constructor
  · rintro ⟨e', he', hmem, hnew⟩
    rw [htake, ← List.map_take] at hmem
    by_contra hle
    rw [Nat.not_lt] at hle
    exact hnew (List.map_subset _ (List.take_subset_take_left _ hle) hmem)
  · intro hi
    obtain ⟨p, hp, -, hnew⟩ := hfresh i hi
    rw [List.getElem?_map, he] at hp
    cases hp
    refine ⟨e, he, ?_, ?_⟩
    · rw [htake]
      refine List.mem_of_getElem? (i := i) ?_
      rw [List.getElem?_take_of_lt hi, List.getElem?_map, he]
      rfl
    · rwa [List.map_take]

/-- The deferred call fails exactly the futures whose entries it did not hand to the kernel if and
only if none of the first `r` entries is skipped, where `r` is what `io_submit` accepts. -/
theorem deferred_submit_attributes_iff (hctx : a.context.ctx ≠ 0)
    (hnodup : (a.pending.map Prod.snd).Nodup) (hr : r ≤ a.claimed.length) :
    a.Attributes (.ok r) ↔ ∀ i < r, Fresh a.heap (a.live.map Prod.fst) i := by
  obtain ⟨hreached, hfutures⟩ := deferredSubmit_spec hctx hr
  have hlive : (a.live.map Prod.snd).Nodup :=
    hnodup.sublist (List.filter_sublist.map Prod.snd)
  constructor
  · intro h i hi
    by_contra hskip
    -- a skipped entry before `r` is left alone although it was not handed over
    have hlen : i < a.live.length := Nat.lt_of_lt_of_le hi (Nat.le_trans hr a.claimed_length_le)
    have he : a.live[i]? = some a.live[i] := List.getElem?_eq_getElem hlen
    have hfail := h.refused i _ he (by
      rw [hreached]
      exact fun hh => hskip hh.fresh)
    have hkept : a.live[i].2 ∉ (a.live.drop r).map Prod.snd := by
      rw [List.map_drop]
      refine List.disjoint_take_drop hlive (Nat.le_refl r) (List.mem_of_getElem? (i := i) ?_)
      rw [List.getElem?_take_of_lt hi, List.getElem?_map, he]
      rfl
    rw [hfutures, setExceptions_of_not_mem hkept] at hfail
    have hopen := live_not_done (List.getElem_mem hlen)
    rw [hfail] at hopen
    cases hopen
  · intro hfresh
    refine ⟨fun i e he hnot => ?_, fun f hall => ?_⟩
    · rw [hreached, handed_iff he hfresh, Nat.not_lt] at hnot
      rw [hfutures]
      refine setExceptions_of_mem (List.mem_map_of_mem ?_)
        (live_not_done (List.mem_of_getElem? he))
      refine List.mem_of_getElem? (i := i - r) ?_
      rw [List.getElem?_drop, Nat.add_sub_cancel' hnot, he]
    · rw [hfutures]
      refine setExceptions_of_not_mem fun hmem => ?_
      obtain ⟨e, he, rfl⟩ := List.mem_map.mp hmem
      obtain ⟨j, hj⟩ := List.mem_iff_getElem?.mp he
      rw [List.getElem?_drop] at hj
      have hhanded := hall _ e hj rfl
      rw [hreached, handed_iff hj hfresh] at hhanded
      omega

/-- Three queued entries: an Operation that may be in progress, a fresh one, and the first again. -/
def threeEntries (inProgress : Bool) : Adapter where
  heap :=
    { ops := fun p => { iocb := { aioData := p, aioLioOpcode := .fsync },
                        inProgress := inProgress && p == 16 }
      ctxRefs := fun _ => 1 }
  self := 0
  context := ⟨1, 3⟩
  futures := fun _ => .pending
  pending := [(16, 0), (32, 1), (16, 2)]
  submitScheduled := true

theorem deferred_submit_attributes_two : (threeEntries false).Attributes (.ok 2) := by
  refine (deferred_submit_attributes_iff (by decide) (by decide) (by decide)).mpr fun i hi => ?_
  match i, hi with
  | 0, _ => exact ⟨16, rfl, by decide, by decide⟩
  | 1, _ => exact ⟨32, rfl, by decide, by decide⟩

/-- The first entry is skipped and its future left alone; the future of the second is failed
although its Operation reached the kernel. -/
theorem deferred_submit_misattributes :
    ((threeEntries true).deferredSubmit (.ok 1)).2 = [32] ∧
      ((threeEntries true).deferredSubmit (.ok 1)).1.futures 0 = .pending ∧
      ((threeEntries true).deferredSubmit (.ok 1)).1.futures 1 = .exception notSubmitted ∧
      ¬(threeEntries true).Attributes (.ok 1) := by
  have hreached : ((threeEntries true).deferredSubmit (.ok 1)).2 = [32] := by decide
  have hleft : ((threeEntries true).deferredSubmit (.ok 1)).1.futures 0 = .pending := by decide
  refine ⟨hreached, hleft, by decide, fun h => ?_⟩
  have hfail := h.refused 0 (16, 0) rfl (by
    rw [hreached]
    rintro ⟨e, he, hmem, -⟩
    cases he
    exact absurd hmem (by decide))
  rw [hleft] at hfail
  cases hfail

end Adapter

end Caio.LinuxAio
