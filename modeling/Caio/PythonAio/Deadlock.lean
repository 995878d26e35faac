import Mathlib.Order.WithBot
import Caio.Lib.LockOrder
import Caio.Lib.Table
import Caio.PythonAio.Claims
import Caio.PythonAio.Threads

/-!
# python_aio: the order of the locks

A thread takes a Context lock last and never waits with one. It waits with an Operation lock only
in a finaliser that `set_callback` runs, and what the finaliser calls decides about deadlocks.
-/

namespace Caio.PythonAio

open LockOrder

/-! ## Frames and their locks -/

namespace Frame

variable {world world' : World} {f f' : Frame} {l : Lock} {p : OpId}

theorem held_acquire (h : f.acquire world = some (l, f')) : f'.held = l :: f.held := by
  cases f with
  | user => cases h
  | setCallback p callback pc | close k pc | completion k p j pc =>
    cases pc <;> cases h <;> rfl
  | submit k i pc =>
    cases pc with
    | next =>
      obtain ⟨p, -, h⟩ := Option.map_eq_some_iff.mp h
      cases h
      rfl
    | acquireCtx p =>
      cases h
      rfl
    | body | releaseCtx | releaseOp => cases h

theorem held_release {f' : Option Frame} (h : f.release = some (l, f')) :
    f.held = l :: f'.toList.flatMap held := by
  cases f with
  | user => cases h
  | setCallback p callback pc | close k pc | submit k i pc => cases pc <;> cases h <;> rfl
  | completion k p j pc =>
    cases pc with
    | releaseCtx =>
      cases h
      rfl
    | releaseOp callback =>
      cases h
      cases callback <;> rfl
    | acquireCtx | releaseSlot | record | acquireOp | lookup | invoke | returns => cases h

theorem held_of_acquire (h : f.acquire world = some (l, f')) {m : Lock} (hm : m ∈ f.held) :
    ∃ p k, m = .operation p ∧ l = .context k := by
  cases f with
  | user => cases h
  | setCallback p callback pc | close k pc | completion k p j pc =>
    cases pc <;> cases h <;> cases hm
  | submit k i pc =>
    cases pc with
    | next => cases hm
    | acquireCtx p =>
      cases h
      exact ⟨p, k, List.mem_singleton.mp hm, rfl⟩
    | body | releaseCtx | releaseOp => cases h

end Frame

/-! ## The locks that a call may still take -/

/-- The Operations that a call of `submit` may still lock. -/
def Call.Takes (c : Call) (p : OpId) : Prop := p ∈ c.rest ∨ c.held = some p

theorem Call.takes_of_section {c : Call} {p : OpId} (h : c.section? = some p) : c.Takes p := by
  unfold Call.section? at h
  split at h
  · rename_i hrest
    cases h
    exact .inl (hrest ▸ List.mem_cons_self)
  · rename_i hpc
    cases h
    refine .inr ?_
    rw [Call.held, hpc]
  · cases h

theorem Call.takes_of_none {c c' : Call} (hrest : c'.rest ⊆ c.rest) (hheld : c'.held = none)
    (p : OpId) (h : c'.Takes p) : c.Takes p := by
  rcases h with h | h
  · exact .inl (hrest h)
  · rw [hheld] at h
    cases h

/-- The calls are still there, and will lock nothing new. -/
def CallsKept (w w' : World) : Prop :=
  ∀ (i : ℕ) (c : Call), w.calls[i]? = some c →
    ∃ c', w'.calls[i]? = some c' ∧ ∀ p, c'.Takes p → c.Takes p

namespace CallsKept

variable {w w' : World} {i : ℕ} {c : Call}

theorem of_eq (h : w'.calls = w.calls) : CallsKept w w' := by
  intro i c hc
  exact ⟨c, h ▸ hc, fun _ => id⟩

theorem of_append {cs : List Call} (h : w'.calls = w.calls ++ cs) : CallsKept w w' := by
  intro i c hc
  refine ⟨c, ?_, fun _ => id⟩
  rw [h, List.getElem?_append_left (Table.lt_length hc)]
  exact hc

theorem of_set {c' : Call} (hc : w.calls[i]? = some c) (h : w'.calls = w.calls.set i c')
    (htakes : ∀ p, c'.Takes p → c.Takes p) : CallsKept w w' := by
  intro j d hd
  by_cases hij : i = j
  · subst hij
    cases hc.symm.trans hd
    exact ⟨c', h ▸ Table.getElem?_set_self hc c', htakes⟩
  · exact ⟨d, h ▸ (List.getElem?_set_ne hij).trans hd, fun _ => id⟩

end CallsKept

theorem World.step_callsKept {w w' : World} {a : World.Action} (hs : w.step a = some w') :
    CallsKept w w' := by
  cases a with
  | submit k args =>
    simp only [World.step] at hs
    split at hs <;> cases hs <;> exact .of_append rfl
  | execute i =>
    obtain ⟨c, hc, hs⟩ := World.onCall_eq_some hs
    split at hs
    case h_1 hpc hrest =>
      cases hs
      exact .of_set hc rfl (Call.takes_of_none (fun _ => id) rfl)
    case h_2 p ps hpc hrest =>
      cases hs
      have htail : ps ⊆ c.rest := by
        rw [hrest]
        exact List.subset_cons_self p ps
      -- skipped, closed or full, and a claim, which keeps `p` for the rollback
      unfold World.execute
      split_ifs
      · refine .of_set hc rfl (Call.takes_of_none htail ?_)
        rw [Call.held]
        simp only [hpc]
      · exact .of_set hc rfl (Call.takes_of_none (fun _ => id) rfl)
      · exact .of_set hc rfl (Call.takes_of_none (fun _ => id) rfl)
      · refine .of_set hc rfl fun q hq => .inl ?_
        rcases hq with hq | hq
        · exact htail hq
        · cases hq
          rw [hrest]
          exact List.mem_cons_self
    case h_3 => cases hs
  | applyAsync i exc =>
    obtain ⟨c, hc, hs⟩ := World.onCall_eq_some hs
    split at hs
    case h_1 p hpc =>
      obtain ⟨-, hs⟩ := Option.ite_none_right_eq_some.mp hs
      cases hs
      exact .of_set hc rfl (Call.takes_of_none (fun _ => id) rfl)
    case h_2 p exc hpc _ =>
      cases hs
      refine .of_set hc rfl fun q hq => ?_
      rcases hq with hq | hq
      · exact .inl hq
      · refine .inr ?_
        rw [Call.held, hpc]
        exact hq
    case h_3 => cases hs
  | rollbackClaim i =>
    obtain ⟨c, hc, hs⟩ := World.onCall_eq_some hs
    split at hs
    case h_1 p exc hpc =>
      cases hs
      exact .of_set hc rfl (Call.takes_of_none (fun _ => id) rfl)
    case h_2 => cases hs
  | run j returned | releaseSlot j | record j | invokeCallback j =>
    obtain ⟨b, hb, hs⟩ := World.onJob_eq_some hs
    split at hs
    case h_1 =>
      cases hs
      exact .of_eq rfl
    case h_2 => cases hs
  | setCallback p callback =>
    cases hs
    exact .of_eq rfl
  | close k =>
    cases hs
    unfold World.close
    split_ifs <;> exact .of_eq rfl

theorem CallsKept.of_world {w w' : World} (h : w' = w ∨ ∃ a, w.step a = some w') :
    CallsKept w w' := by
  rcases h with rfl | ⟨a, ha⟩
  · exact .of_eq rfl
  · exact World.step_callsKept ha

namespace Frame

variable {world world' : World} {f f' : Frame} {l : Lock} {p : OpId}

def Takes (world : World) (p : OpId) : Frame → Prop
  | .setCallback q _ .acquire => p = q
  | .submit _ i _ => ∃ c, world.calls[i]? = some c ∧ c.Takes p
  | .completion _ q _ _ => p = q
  | _ => False

/-- The call of the frame is one of the world's. -/
def Known (world : World) : Frame → Prop
  | .submit _ i _ => ∃ c, world.calls[i]? = some c
  | _ => True

theorem Known.kept (h : f.Known world) (hkept : CallsKept world world') : f.Known world' := by
  cases f with
  | submit k i pc =>
    obtain ⟨c, hc⟩ := h
    obtain ⟨c', hc', -⟩ := hkept i c hc
    exact ⟨c', hc'⟩
  | user | setCallback | completion | close => trivial

theorem Takes.of_kept (h : f.Takes world' p) (hknown : f.Known world)
    (hkept : CallsKept world world') : f.Takes world p := by
  cases f with
  | submit k i pc =>
    obtain ⟨c, hc⟩ := hknown
    obtain ⟨c', hc', htakes⟩ := hkept i c hc
    obtain ⟨d, hd, h⟩ := h
    cases hc'.symm.trans hd
    exact ⟨c, hc, htakes p h⟩
  | setCallback q callback pc => cases pc <;> exact h
  | user | completion | close => exact h

theorem takes_of_acquire (h : f.acquire world = some (.operation p, f')) : f.Takes world p := by
  cases f with
  | user => cases h
  | setCallback q callback pc | close k pc | completion k q j pc =>
    cases pc <;> cases h <;> rfl
  | submit k i pc =>
    cases pc with
    | next =>
      obtain ⟨q, hq, h⟩ := Option.map_eq_some_iff.mp h
      cases h
      obtain ⟨c, hc, hsection⟩ := Option.bind_eq_some_iff.mp hq
      exact ⟨c, hc, Call.takes_of_section hsection⟩
    | acquireCtx | body | releaseCtx | releaseOp => cases h

/-- `g` stands for the same call as `f`, further on. -/
structure Continues (f g : Frame) : Prop where
  takes : ∀ world p, g.Takes world p → f.Takes world p
  known : ∀ world, f.Known world → g.Known world

theorem continues_of_acquire (h : f.acquire world = some (l, f')) : f.Continues f' := by
  cases f with
  | user => cases h
  | setCallback q callback pc | close k pc | completion k q j pc =>
    cases pc <;> cases h <;> exact ⟨fun _ _ => by simp [Takes], fun _ => id⟩
  | submit k i pc =>
    cases pc with
    | next =>
      obtain ⟨q, -, h⟩ := Option.map_eq_some_iff.mp h
      cases h
      exact ⟨fun _ _ => id, fun _ => id⟩
    | acquireCtx q =>
      cases h
      exact ⟨fun _ _ => id, fun _ => id⟩
    | body | releaseCtx | releaseOp => cases h

theorem continues_of_release {g : Frame} (h : f.release = some (l, some g)) : f.Continues g := by
  cases f with
  | user => cases h
  | setCallback q callback pc | close k pc | submit k i pc =>
    cases pc <;> cases h <;> exact ⟨fun _ _ => id, fun _ => id⟩
  | completion k q j pc =>
    cases pc with
    | releaseCtx =>
      cases h
      exact ⟨fun _ _ => id, fun _ => id⟩
    | releaseOp callback =>
      cases callback <;> cases h
      exact ⟨fun _ _ => id, fun _ => id⟩
    | acquireCtx | releaseSlot | record | acquireOp | lookup | invoke | returns => cases h

/-- What a statement leaves of its frame: nothing, the frame further on, or the frame with user
code on top of it. The locks stay, and below user code there are only Operation locks. -/
inductive Leaves (f : Frame) : List Frame → Prop
  | returned (hheld : f.held = []) : Leaves f []
  | next {g : Frame} (hheld : g.held = f.held) (hcontinues : f.Continues g) : Leaves f [g]
  | user {g : Frame} (hheld : g.held = f.held) (hcontinues : f.Continues g)
    (hops : ∀ l ∈ g.held, ∃ p, l = .operation p) : Leaves f [.user, g]

theorem Leaves.held_eq {fs : List Frame} (h : f.Leaves fs) : fs.flatMap held = f.held := by
  cases h with
  | returned hheld => exact hheld.symm
  | next hheld | user hheld =>
    rw [← hheld]
    exact List.append_nil _

theorem Continues.refl (f : Frame) : f.Continues f := ⟨fun _ _ => id, fun _ => id⟩

theorem run_world {o : Outcome} {fs : List Frame} (h : f.run world o = some (world', fs)) :
    world' = world ∨ ∃ a, world.step a = some world' := by
  have hmap : ∀ {a : World.Action} {g : World → World × List Frame}, (∀ w, (g w).1 = w) →
      (world.step a).map g = some (world', fs) → ∃ a, world.step a = some world' := by
    intro a g hg h
    obtain ⟨w, hw, h⟩ := Option.map_eq_some_iff.mp h
    have hw' : w = world' := by
      rw [← hg w, h]
    exact ⟨a, hw' ▸ hw⟩
  cases f with
  | user => cases h
  | setCallback p callback pc =>
    cases pc with
    | store =>
      obtain ⟨-, h⟩ := Option.ite_none_left_eq_some.mp h
      exact .inr (hmap (fun _ => rfl) h)
    | acquire | release => cases h
  | submit k i pc =>
    cases pc with
    | next =>
      obtain ⟨c, -, h⟩ := Option.bind_eq_some_iff.mp h
      split at h
      · exact .inr (hmap (fun _ => rfl) h)
      · exact .inr (hmap (fun _ => rfl) h)
      · cases h
        exact .inl rfl
      · cases h
        exact .inl rfl
      · cases h
    | body p =>
      obtain ⟨w, hw, h⟩ := Option.map_eq_some_iff.mp h
      cases h
      obtain ⟨c, -, hw⟩ := Option.bind_eq_some_iff.mp hw
      split at hw
      · exact .inr ⟨_, hw⟩
      · exact .inr ⟨_, hw⟩
    | acquireCtx | releaseCtx | releaseOp => cases h
  | completion k p j pc =>
    cases pc with
    | releaseSlot | record | lookup => exact .inr (hmap (fun _ => rfl) h)
    | invoke | returns =>
      cases h
      exact .inl rfl
    | acquireCtx | releaseCtx | acquireOp | releaseOp => cases h
  | close k pc =>
    cases pc with
    | check =>
      cases h
      exact .inl rfl
    | body =>
      cases h
      exact .inr ⟨.close k, rfl⟩
    | acquire | release => cases h

theorem run_leaves {o : Outcome} {fs : List Frame} (h : f.run world o = some (world', fs)) :
    f.Leaves fs := by
  cases f with
  | user => cases h
  | setCallback p callback pc =>
    cases pc with
    | store =>
      obtain ⟨-, h⟩ := Option.ite_none_left_eq_some.mp h
      obtain ⟨w, -, h⟩ := Option.map_eq_some_iff.mp h
      have hcontinues :
          Continues (.setCallback p callback .store) (.setCallback p callback .release) :=
        ⟨fun _ _ => id, fun _ => id⟩
      split_ifs at h <;> cases h
      · exact .user rfl hcontinues fun l hl => ⟨p, List.mem_singleton.mp hl⟩
      · exact .next rfl hcontinues
    | acquire | release => cases h
  | submit k i pc =>
    cases pc with
    | next =>
      obtain ⟨c, -, h⟩ := Option.bind_eq_some_iff.mp h
      split at h
      · obtain ⟨w, -, h⟩ := Option.map_eq_some_iff.mp h
        cases h
        exact .next rfl (.refl _)
      · obtain ⟨w, -, h⟩ := Option.map_eq_some_iff.mp h
        cases h
        exact .next rfl (.refl _)
      · cases h
        exact .returned rfl
      · cases h
        exact .returned rfl
      · cases h
    | body p =>
      obtain ⟨w, -, h⟩ := Option.map_eq_some_iff.mp h
      cases h
      exact .next rfl ⟨fun _ _ => id, fun _ => id⟩
    | acquireCtx | releaseCtx | releaseOp => cases h
  | completion k p j pc =>
    cases pc with
    | releaseSlot | record | lookup =>
      obtain ⟨w, -, h⟩ := Option.map_eq_some_iff.mp h
      cases h
      exact .next rfl ⟨fun _ _ => id, fun _ => id⟩
    | invoke =>
      cases h
      refine .user rfl ⟨fun _ _ => id, fun _ => id⟩ fun l hl => ?_
      cases hl
    | returns =>
      cases h
      exact .returned rfl
    | acquireCtx | releaseCtx | acquireOp | releaseOp => cases h
  | close k pc =>
    cases pc with
    | check =>
      simp only [run, Option.some.injEq, Prod.mk.injEq] at h
      obtain ⟨-, rfl⟩ := h
      split_ifs
      · exact .returned rfl
      · exact .next rfl ⟨fun _ _ => id, fun _ => id⟩
    | body =>
      cases h
      exact .next rfl ⟨fun _ _ => id, fun _ => id⟩
    | acquire | release => cases h

end Frame

/-! ## Stacks -/

section Stack

variable {R : Type*} [Preorder R] (rank : OpId → R)

def Lock.height : Lock → WithTop R
  | .operation p => ↑(rank p)
  | .context _ => ⊤

/-- Below every frame there are only Operation locks, which rank below all that the frame may still
lock. -/
def Ascends (world : World) : List Frame → Prop
  | [] => True
  | f :: fs => f.Known world ∧
    (∀ l ∈ fs.flatMap Frame.held, l.height rank < ⊤ ∧
      ∀ p, f.Takes world p → l.height rank < (rank p : WithTop R)) ∧
    Ascends world fs

variable {rank} {world world' : World} {f g : Frame} {fs : List Frame}

theorem Ascends.kept (h : Ascends rank world fs) (hkept : CallsKept world world') :
    Ascends rank world' fs := by
  induction fs with
  | nil => trivial
  | cons f fs ih =>
    obtain ⟨hknown, hbelow, hfs⟩ := h
    refine ⟨hknown.kept hkept, fun l hl => ⟨(hbelow l hl).1, fun p hp => ?_⟩, ih hfs⟩
    exact (hbelow l hl).2 p (hp.of_kept hknown hkept)

theorem Ascends.continues (h : Ascends rank world (f :: fs)) (hcontinues : f.Continues g) :
    Ascends rank world (g :: fs) := by
  obtain ⟨hknown, hbelow, hfs⟩ := h
  refine ⟨hcontinues.known world hknown, fun l hl => ⟨(hbelow l hl).1, fun p hp => ?_⟩, hfs⟩
  exact (hbelow l hl).2 p (hcontinues.takes world p hp)

theorem Ascends.push (h : Ascends rank world (g :: fs)) (hops : ∀ l ∈ g.held, ∃ p, l = .operation p)
    (hknown : f.Known world)
    (htakes : ∀ l ∈ (g :: fs).flatMap Frame.held, ∀ p, f.Takes world p →
      l.height rank < (rank p : WithTop R)) : Ascends rank world (f :: g :: fs) := by
  refine ⟨hknown, fun l hl => ⟨?_, htakes l hl⟩, h⟩
  rcases List.mem_append.mp (List.flatMap_cons ▸ hl) with hl | hl
  · obtain ⟨p, rfl⟩ := hops l hl
    exact WithTop.coe_lt_top (rank p)
  · exact (h.2.1 l hl).1

theorem Ascends.leaves {fs' : List Frame} (h : Ascends rank world (f :: fs))
    (hleaves : f.Leaves fs') : Ascends rank world (fs' ++ fs) := by
  cases hleaves with
  | returned => exact h.2.2
  | next _ hcontinues => exact h.continues hcontinues
  | user _ hcontinues hops =>
    refine (h.continues hcontinues).push hops trivial ?_
    intro l _ p hp
    cases hp

end Stack

/-! ## Runs -/

namespace Process

def heldOperations (s : Process) (th : ThreadId) : List OpId :=
  (s.held th).filterMap fun
    | .operation p => some p
    | .context _ => none

/-- User code that runs with Operation locks, in a finaliser, takes only locks of higher rank. -/
def AscendingCalls {R : Type*} [Preorder R] (rank : OpId → R) (s : Process) : Action → Prop
  | .call th (.setCallback p _) => ∀ q ∈ s.heldOperations th, rank q < rank p
  | .call th (.submit _ args) =>
    ∀ p ∈ args.filterMap Arg.operation?, ∀ q ∈ s.heldOperations th, rank q < rank p
  | _ => True

instance (rank : OpId → ℕ) (s : Process) (a : Action) : Decidable (AscendingCalls rank s a) :=
  match a with
  | .call th (.setCallback p _) =>
    inferInstanceAs (Decidable (∀ q ∈ s.heldOperations th, rank q < rank p))
  | .call th (.submit _ args) => inferInstanceAs (Decidable
      (∀ p ∈ args.filterMap Arg.operation?, ∀ q ∈ s.heldOperations th, rank q < rank p))
  | .call _ (.close _) | .start _ | .worker _ _ | .complete _ _ | .returns _ | .acquire _
  | .release _ | .run _ _ => isTrue trivial

variable {R : Type*} [Preorder R] {rank : OpId → R} {s t : Process} {th : ThreadId}

/-- A step of thread `th`, from its stack to `fs`. -/
structure Moves (rank : OpId → R) (s t : Process) (a : Action) (th : ThreadId)
    (fs : List Frame) : Prop where
  frames : t.frames = Function.update s.frames th fs
  world : t.world = s.world ∨ ∃ b, s.world.step b = some t.world
  locks : LockOrder.Step s.owner t.owner th (s.held th) (fs.flatMap Frame.held)
  ascends : AscendingCalls rank s a → Ascends rank s.world (s.frames th) → Ascends rank t.world fs

theorem enter_spec {world world' : World} {call : UserCall} {f : Frame}
    (h : enter world call = some (world', f)) :
    (world' = world ∨ ∃ a, world.step a = some world') ∧ f.held = [] ∧ f.Known world' ∧
      ∀ p, f.Takes world' p → match call with
        | .setCallback q _ => p = q
        | .submit _ args => p ∈ args.filterMap Arg.operation?
        | .close _ => False := by
  cases call with
  | setCallback q callback =>
    cases h
    exact ⟨.inl rfl, rfl, trivial, fun _ => id⟩
  | close k =>
    cases h
    exact ⟨.inl rfl, rfl, trivial, fun _ => id⟩
  | submit k args =>
    obtain ⟨w, hw, h⟩ := Option.map_eq_some_iff.mp h
    cases h
    have hworld : ∃ a, world.step a = some world' := ⟨_, hw⟩
    simp only [World.step] at hw
    split at hw
    · cases hw
      refine ⟨.inr hworld, rfl, ⟨_, List.getElem?_concat_length⟩, fun p hp => ?_⟩
      obtain ⟨c, hc, hp⟩ := hp
      cases List.getElem?_concat_length.symm.trans hc
      rcases hp with hp | hp
      · cases hp
      · cases hp
    · cases hw
      refine ⟨.inr hworld, rfl, ⟨_, List.getElem?_concat_length⟩, fun p hp => ?_⟩
      obtain ⟨c, hc, hp⟩ := hp
      cases List.getElem?_concat_length.symm.trans hc
      rcases hp with hp | hp
      · exact hp
      · cases hp

theorem mem_heldOperations {p : OpId} (h : .operation p ∈ s.held th) : p ∈ s.heldOperations th :=
  List.mem_filterMap.mpr ⟨.operation p, h, rfl⟩

theorem acquire_moves (hs : s.step (.acquire th) = some t) :
    ∃ fs, Moves rank s t (.acquire th) th fs := by
  simp only [step] at hs
  split at hs
  · rename_i f fs hframes
    obtain ⟨⟨l, f'⟩, hacquire, hs⟩ := Option.bind_eq_some_iff.mp hs
    obtain ⟨hfree, hs⟩ := Option.ite_none_right_eq_some.mp hs
    cases hs
    refine ⟨f' :: fs, rfl, .inl rfl, .acquire l hfree rfl ?_, fun _ hascends => ?_⟩
    · rw [held, hframes, List.flatMap_cons, List.flatMap_cons, Frame.held_acquire hacquire,
        List.cons_append]
    · rw [hframes] at hascends
      exact hascends.continues (Frame.continues_of_acquire hacquire)
  · cases hs

theorem release_moves (hs : s.step (.release th) = some t) :
    ∃ fs, Moves rank s t (.release th) th fs := by
  simp only [step] at hs
  split at hs
  · rename_i f fs hframes
    obtain ⟨⟨l, f'⟩, hrelease, hs⟩ := Option.map_eq_some_iff.mp hs
    cases hs
    refine ⟨f'.toList ++ fs, rfl, .inl rfl, .release l rfl ?_, fun _ hascends => ?_⟩
    · rw [held, hframes, List.flatMap_cons, List.flatMap_append, Frame.held_release hrelease,
        List.cons_append]
    · rw [hframes] at hascends
      cases f' with
      | none => exact hascends.2.2
      | some g => exact hascends.continues (Frame.continues_of_release hrelease)
  · cases hs

theorem run_moves {o : Frame.Outcome} (hs : s.step (.run th o) = some t) :
    ∃ fs, Moves rank s t (.run th o) th fs := by
  simp only [step] at hs
  split at hs
  · rename_i f fs hframes
    obtain ⟨⟨world, fs'⟩, hrun, hs⟩ := Option.map_eq_some_iff.mp hs
    cases hs
    have hleaves := Frame.run_leaves hrun
    have hworld := Frame.run_world hrun
    refine ⟨fs' ++ fs, rfl, hworld, .same rfl ?_, fun _ hascends => ?_⟩
    · rw [held, hframes, List.flatMap_append, List.flatMap_cons, hleaves.held_eq]
    · rw [hframes] at hascends
      exact (hascends.kept (.of_world hworld)).leaves hleaves
  · cases hs

theorem call_moves {call : UserCall} (hs : s.step (.call th call) = some t) :
    ∃ fs, Moves rank s t (.call th call) th fs := by
  simp only [step] at hs
  split at hs
  · rename_i fs hframes
    obtain ⟨⟨world, f⟩, henter, hs⟩ := Option.map_eq_some_iff.mp hs
    cases hs
    obtain ⟨hworld, hheld, hknown, htakes⟩ := enter_spec henter
    refine ⟨f :: .user :: fs, rfl, hworld, .same rfl ?_, fun hC hascends => ?_⟩
    · rw [held, hframes, List.flatMap_cons, hheld, List.nil_append]
    · rw [hframes] at hascends
      refine (hascends.kept (.of_world hworld)).push ?_ hknown ?_
      · intro l hl
        cases hl
      · intro l hl p hp
        -- below user code there are only Operation locks
        have hops : ∃ q, l = .operation q := by
          cases l with
          | operation q => exact ⟨q, rfl⟩
          | context k =>
            rw [List.flatMap_cons] at hl
            exact absurd (hascends.2.1 _ hl).1 (lt_irrefl _)
        obtain ⟨q, rfl⟩ := hops
        have hq : q ∈ s.heldOperations th := by
          apply mem_heldOperations
          rw [held, hframes]
          exact hl
        have hp := htakes p hp
        apply WithTop.coe_lt_coe.mpr
        cases call with
        | setCallback r callback =>
          cases hp
          exact hC q hq
        | submit k args => exact hC p hp q hq
        | close k => exact hp.elim
  · cases hs

theorem step_moves (rank : OpId → R) {a : Action} (hs : s.step a = some t) :
    ∃ th fs, Moves rank s t a th fs := by
  cases a with
  | acquire th => exact ⟨th, acquire_moves hs⟩
  | release th => exact ⟨th, release_moves hs⟩
  | call th call => exact ⟨th, call_moves hs⟩
  | run th o => exact ⟨th, run_moves hs⟩
  | start th =>
    obtain ⟨hframes, hs⟩ := Option.ite_none_right_eq_some.mp hs
    cases hs
    refine ⟨th, [.user], rfl, .inl rfl, .same rfl ?_, fun _ _ => ⟨trivial, fun l hl => ?_, trivial⟩⟩
    · rw [held, hframes]
      rfl
    · cases hl
  | worker j returned =>
    obtain ⟨world, hworld, hs⟩ := Option.map_eq_some_iff.mp hs
    cases hs
    refine ⟨0, s.frames 0, ?_, .inr ⟨_, hworld⟩, .same rfl rfl, fun _ hascends => ?_⟩
    · exact (Function.update_eq_self 0 s.frames).symm
    · exact hascends.kept (World.step_callsKept hworld)
  | complete th j =>
    obtain ⟨b, -, hs⟩ := Option.bind_eq_some_iff.mp hs
    split at hs
    · obtain ⟨⟨hframes, -⟩, hs⟩ := Option.ite_none_right_eq_some.mp hs
      cases hs
      refine ⟨th, _, rfl, .inl rfl, .same rfl ?_, fun _ _ => ⟨trivial, fun l hl => ?_, trivial⟩⟩
      · rw [held, hframes]
        rfl
      · cases hl
    · cases hs
  | returns th =>
    simp only [Process.step] at hs
    split at hs
    · rename_i fs hframes
      cases hs
      refine ⟨th, fs, rfl, .inl rfl, .same rfl ?_, fun _ hascends => ?_⟩
      · rw [held, hframes]
        rfl
      · rw [hframes] at hascends
        exact hascends.2.2
    · cases hs

theorem reachable_world {C : Process → Action → Prop} (h : system.ReachableBy C s) :
    World.system.Reachable s.world := by
  apply h.invariant (I := fun s => World.system.Reachable s.world)
  · intro s hinit
    exact .init hinit.world
  · intro s a t hs _ hstep
    obtain ⟨th, fs, hmoves⟩ := step_moves (R := ℕ) (fun _ => 0) hstep
    rcases hmoves.world with heq | ⟨b, hb⟩
    · rw [heq]
      exact hs
    · exact .step hs trivial hb

/-- Every lock has one holder, in every run: what is under locks is one step of the program at
large. -/
theorem exclusive {C : Process → Action → Prop} (h : system.ReachableBy C s) :
    LockOrder.Exclusive s.owner s.held := by
  apply h.invariant (I := fun s => LockOrder.Exclusive s.owner s.held)
  · intro s hinit th l
    rw [held, hinit.frames, hinit.owner]
    rfl
  · intro s a t hs _ hstep
    obtain ⟨th, fs, hmoves⟩ := step_moves (R := ℕ) (fun _ => 0) hstep
    have hheld : t.held = Function.update s.held th (fs.flatMap Frame.held) := by
      funext th'
      rw [held, hmoves.frames]
      by_cases hth : th' = th
      · rw [hth, Function.update_self, Function.update_self]
      · rw [Function.update_of_ne hth, Function.update_of_ne hth]
        rfl
    rw [hheld]
    exact hs.step hmoves.locks

theorem ascends (h : system.ReachableBy (AscendingCalls rank) s) (th : ThreadId) :
    Ascends rank s.world (s.frames th) := by
  apply h.invariant (I := fun s => ∀ th, Ascends rank s.world (s.frames th)) ?_ ?_ th
  · intro s hinit th
    rw [hinit.frames]
    trivial
  · intro s a t hs hC hstep th'
    obtain ⟨th, fs, hmoves⟩ := step_moves rank hstep
    rw [hmoves.frames]
    by_cases hth : th' = th
    · rw [hth, Function.update_self]
      exact hmoves.ascends hC (hs th)
    · rw [Function.update_of_ne hth]
      exact (hs th').kept (.of_world hmoves.world)

theorem ascending (h : system.ReachableBy (AscendingCalls rank) s) :
    LockOrder.Ascending s.owner s.wants (Lock.height rank) := by
  intro th l l' howner hwants
  obtain ⟨f, hhead, hwants⟩ := Option.bind_eq_some_iff.mp hwants
  obtain ⟨⟨l₁, f'⟩, hacquire, hl⟩ := Option.map_eq_some_iff.mp hwants
  obtain rfl : l₁ = l' := hl
  obtain ⟨fs, hframes⟩ := List.head?_eq_some_iff.mp hhead
  have hheld := (exclusive h).mem_iff.mpr howner
  have hascends := ascends h th
  rw [held, hframes, List.flatMap_cons] at hheld
  rw [hframes] at hascends
  rcases List.mem_append.mp hheld with hl | hl
  · obtain ⟨p, k, rfl, rfl⟩ := Frame.held_of_acquire hacquire hl
    exact WithTop.coe_lt_top (rank p)
  · obtain ⟨htop, htakes⟩ := hascends.2.1 l hl
    cases l₁ with
    | operation p => exact htakes p (Frame.takes_of_acquire hacquire)
    | context k => exact htop

/-- No thread waits for a lock that it holds, and no threads wait for each other in a circle. -/
def DeadlockFree (s : Process) : Prop :=
  (∀ th l, s.wants th = some l → s.owner l ≠ some th) ∧ ¬Deadlock s.owner s.wants

/-- In a run in which user code under Operation locks takes Operation locks in the order of some
ranks, or none, no thread is deadlocked. -/
theorem deadlockFree_of_ascending {s : Process} {R : Type*} [Preorder R] (rank : OpId → R)
    (h : system.ReachableBy (AscendingCalls rank) s) : s.DeadlockFree := by
  have hfree := (ascending h).not_deadlock
  refine ⟨?_, hfree⟩
  intro th l hwants howner
  exact hfree (.of_self hwants howner)

/-- User code that sets the callback of an Operation whose lock its thread holds waits for itself,
in every run. -/
theorem not_deadlockFree_of_held {s t : Process} {p : OpId} {callback : Callback}
    (h : system.Reachable s) (hheld : p ∈ s.heldOperations th)
    (hs : s.step (.call th (.setCallback p callback)) = some t) : ¬t.DeadlockFree := by
  have howner : s.owner (.operation p) = some th := by
    obtain ⟨l, hl, hp⟩ := List.mem_filterMap.mp hheld
    cases l with
    | operation q =>
      cases hp
      exact (exclusive h).mem_iff.mp hl
    | context k => cases hp
  intro hfree
  simp only [step] at hs
  split at hs
  · cases hs
    apply hfree.1 th (.operation p) ?_ howner
    rw [wants]
    simp only [setFrames, Function.update_self]
    rfl
  · cases hs

def new : Process where
  world := World.new (fun _ => .fsync 3) 1
  owner := fun _ => none
  frames := fun _ => []
  handled := []

theorem new_init : Init new :=
  ⟨World.new_init (fun _ => rfl) (by decide), fun _ => rfl, fun _ => rfl, rfl⟩

/-- Thread 0 replaces the callback of the Operation 7 by one; the finaliser of the old one is
running, with the lock of the Operation. -/
def finalisingRun : List Action :=
  [.start 0, .call 0 (.setCallback 7 1), .acquire 0, .run 0 {}, .release 0,
    .call 0 (.setCallback 7 2), .acquire 0, .run 0 ⟨none, true⟩]

/-- A finaliser that sets the callback of a later Operation, while thread 1 waits for the lock under
which it runs. -/
theorem deadlockFree_of_ascending_finaliser :
    ∃ s, system.exec new (finalisingRun ++
        [.start 1, .call 1 (.submit 0 [.operation 7]), .call 0 (.setCallback 8 3), .acquire 0]) =
          some s ∧
      s.wants 1 = some (.operation 7) ∧ s.owner (.operation 7) = some 0 ∧ s.DeadlockFree := by
  have hrun : ((system.exec new (finalisingRun ++
      [.start 1, .call 1 (.submit 0 [.operation 7]), .call 0 (.setCallback 8 3), .acquire 0])).any
      fun s => decide (s.wants 1 = some (.operation 7) ∧ s.owner (.operation 7) = some 0)) =
        true := by decide +kernel
  obtain ⟨s, hexec, hs⟩ := (Option.any_eq_true _ _).mp hrun
  obtain ⟨hwants, howner⟩ := of_decide_eq_true hs
  have hmeets : system.Meets (AscendingCalls (id : ℕ → ℕ)) new (finalisingRun ++
      [.start 1, .call 1 (.submit 0 [.operation 7]), .call 0 (.setCallback 8 3), .acquire 0]) := by
    decide +kernel
  exact ⟨s, hexec, hwants, howner,
    deadlockFree_of_ascending id (.exec (.init new_init) hmeets hexec)⟩

/-- A finaliser that sets the callback of the Operation whose callback is being replaced waits for
its own thread. -/
theorem finaliser_deadlocks : ¬∀ s, system.Reachable s → s.DeadlockFree := by
  intro h
  have hrun : ((system.exec new finalisingRun).any fun s => decide (7 ∈ s.heldOperations 0) &&
      (s.step (.call 0 (.setCallback 7 3))).isSome) = true := by decide +kernel
  obtain ⟨s, hexec, hs⟩ := (Option.any_eq_true _ _).mp hrun
  obtain ⟨hheld, hstep⟩ := Bool.and_eq_true_iff.mp hs
  obtain ⟨t, ht⟩ := Option.isSome_iff_exists.mp hstep
  have hreach : system.Reachable s := .exec (.init new_init) hexec
  have hreach' : system.Reachable t :=
    .step (a := .call 0 (.setCallback 7 3)) hreach trivial ht
  exact not_deadlockFree_of_held hreach (of_decide_eq_true hheld) ht (h t hreach')

end Process

end Caio.PythonAio
