import Mathlib.Data.List.Infix
import Mathlib.Data.List.Induction
import Caio.Lib.Transition

namespace Linearizability

/-- A call has its result as soon as it has had its effect. -/
inductive Status (ω ρ : Type*)
  | unborn
  | pending (op : ω)
  | decided (result : ρ)
  | returned (result : ρ)

/-- An object with atomic operations, and with moves of its own. -/
structure Object (τ ω ρ β : Type*) where
  apply : ω → τ → τ × ρ
  internal : τ → β → Option τ

/-- An entry of a sequential history. -/
inductive Entry (ι ω ρ β : Type*)
  | call (i : ι) (op : ω) (result : ρ)
  | other (b : β)

section

variable {ω ρ : Type*}

def Status.results : Status ω ρ → List ρ
  | unborn | pending _ => []
  | decided result | returned result => [result]

/-- A step in which a call only starts or returns. -/
inductive Status.Quietly : Status ω ρ → Status ω ρ → Prop
  | refl (x : Status ω ρ) : Quietly x x
  | start (op : ω) : Quietly .unborn (.pending op)
  | finish (result : ρ) : Quietly (.decided result) (.returned result)

theorem Status.Quietly.results {x y : Status ω ρ} (h : x.Quietly y) : y.results = x.results := by
  cases h <;> rfl

end

variable {σ α τ ι ω ρ β : Type*} [DecidableEq ι]

/-- What a step may be for the object. -/
inductive Point (O : Object τ ω ρ β) (x x' : τ) (status status' : ι → Status ω ρ) : Prop
  | silent (hx : x' = x) (h : ∀ i, (status i).Quietly (status' i))
  | internal (b : β) (hx : O.internal x b = some x') (h : status' = status)
  | call (i : ι) (op : ω) (result : ρ) (after : Status ω ρ) (hbefore : status i = .pending op)
      (happly : O.apply op x = (x', result)) (hafter : after.results = [result])
      (h : status' = Function.update status i after)

variable {O : Object τ ω ρ β} {x x' : τ} {status status' : ι → Status ω ρ}

/-- A step that only one call sees, which starts or returns at most. -/
theorem Point.of_update (hx : x' = x) {i : ι} {y : Status ω ρ} (hy : (status i).Quietly y)
    (h : status' = Function.update status i y) : Point O x x' status status' := by
  refine .silent hx fun j => ?_
  rw [h]
  by_cases hj : j = i
  · rw [hj, Function.update_self]
    exact hy
  · rw [Function.update_of_ne hj]
    exact .refl _

/-- A call keeps its operation until it has its result. -/
theorem Point.pending (h : Point O x x' status status') {i : ι} {op : ω}
    (hi : status i = .pending op ∨ (status i).results ≠ []) :
    status' i = .pending op ∨ (status' i).results ≠ [] := by
  cases h with
  | silent _ hquiet =>
    rcases hi with hi | hi
    · have hq := hquiet i
      rw [hi] at hq
      generalize status' i = y at hq
      cases hq
      exact .inl rfl
    · exact .inr ((hquiet i).results ▸ hi)
  | internal _ _ hsame => exact hsame ▸ hi
  | call j op' result after hbefore _ hresult hafter =>
    rw [hafter]
    by_cases hij : i = j
    · rw [hij, Function.update_self]
      exact .inr (hresult ▸ List.cons_ne_nil _ _)
    · rwa [Function.update_of_ne hij]

variable {S : TransitionSystem σ α} {abs : σ → τ} {view : σ → ι → Status ω ρ} {s t : σ}

theorem pending_exec
    (hstep : ∀ s a t, S.Reachable s → S.step s a = some t →
      Point O (abs s) (abs t) (view s) (view t)) {as : List α} {i : ι} {op : ω}
    (hs : S.Reachable s) (hrun : S.exec s as = some t) (hi : view s i = .pending op) :
    view t i = .pending op ∨ (view t i).results ≠ [] := by
  have hinv := TransitionSystem.exec_invariant
    (I := fun s => S.Reachable s ∧ (view s i = .pending op ∨ (view s i).results ≠ []))
    (fun s a t _ hI h => ⟨.step hI.1 trivial h, (hstep s a t hI.1 h).pending hI.2⟩)
    ⟨hs, .inl hi⟩ hrun
  exact hinv.2

variable [DecidableEq ρ] {x₀ : τ} {L : List (Entry ι ω ρ β)}

def Object.step (O : Object τ ω ρ β) (x : τ) : Entry ι ω ρ β → Option τ
  | .call _ op result => if (O.apply op x).2 = result then some (O.apply op x).1 else none
  | .other b => O.internal x b

def Object.system (O : Object τ ω ρ β) : TransitionSystem τ (Entry ι ω ρ β) :=
  ⟨fun _ => True, O.step⟩

def Entry.result? (i : ι) : Entry ι ω ρ β → Option ρ
  | .call j _ result => if j = i then some result else none
  | .other _ => none

/-- The history has led to the state of the object, and has one entry for each call that has had
its effect. -/
structure Explains (O : Object τ ω ρ β) (x₀ : τ) (L : List (Entry ι ω ρ β)) (x : τ)
    (status : ι → Status ω ρ) : Prop where
  legal : O.system.exec x₀ L = some x
  results : ∀ i, L.filterMap (Entry.result? i) = (status i).results

/-- Every run has a sequential history of the object in which each call has the result that it
returns. What had returned before another call started also comes first in it: the history of every
beginning of the run is a beginning of the history. -/
def Linearizable (S : TransitionSystem σ α) (O : Object τ ω ρ β) (abs : σ → τ)
    (status : σ → ι → Status ω ρ) : Prop :=
  ∀ s₀ as t, S.init s₀ → S.exec s₀ as = some t →
    ∃ L, Explains O (abs s₀) L (abs t) (status t) ∧
      ∀ as₁ as₂ s, as = as₁ ++ as₂ → S.exec s₀ as₁ = some s →
        (∃ L₁, L₁ <+: L ∧ Explains O (abs s₀) L₁ (abs s) (status s)) ∧
        ∀ i op, status s i = .pending op → ∀ op' result, .call i op' result ∈ L → op' = op

theorem Explains.not_mem (h : Explains O x₀ L x status) {i : ι} {op op' : ω} {result : ρ}
    (hi : status i = .pending op) : .call i op' result ∉ L := by
  intro hmem
  have hresult : result ∈ L.filterMap (Entry.result? i) :=
    List.mem_filterMap.mpr ⟨_, hmem, if_pos rfl⟩
  rw [h.results, hi] at hresult
  exact List.not_mem_nil hresult

/-- A step extends the history by an entry, or not at all. -/
theorem Explains.extend (h : Explains O x₀ L x status) (hp : Point O x x' status status') :
    ∃ L', Explains O x₀ (L ++ L') x' status' ∧
      ∀ i op result, .call i op result ∈ L' → status i = .pending op := by
  cases hp with
  | silent hx hquiet =>
    refine ⟨[], ⟨?_, fun i => ?_⟩, fun _ _ _ hmem => absurd hmem List.not_mem_nil⟩
    · rw [List.append_nil, hx]
      exact h.legal
    · rw [List.append_nil, h.results, (hquiet i).results]
  | internal b hx hsame =>
    refine ⟨[.other b], ⟨?_, fun i => ?_⟩, fun _ _ _ hmem => ?_⟩
    · rw [TransitionSystem.exec_append, h.legal]
      exact TransitionSystem.exec_singleton hx
    · rw [List.filterMap_append, h.results, hsame]
      exact List.append_nil _
    · cases List.mem_singleton.mp hmem
  | call j op result after hbefore happly hresult hafter =>
    refine ⟨[.call j op result], ⟨?_, fun i => ?_⟩, fun i op' result' hmem => ?_⟩
    · rw [TransitionSystem.exec_append, h.legal]
      refine TransitionSystem.exec_singleton ?_
      show (if (O.apply op x).2 = result then some (O.apply op x).1 else none) = _
      rw [happly]
      exact if_pos rfl
    · rw [List.filterMap_append, h.results, hafter]
      by_cases hi : i = j
      · subst hi
        have hself : [Entry.call i op result].filterMap (Entry.result? (β := β) i) = [result] :=
          List.filterMap_cons_some (if_pos rfl)
        rw [Function.update_self, hbefore, hself, hresult]
        rfl
      · have hother : [Entry.call j op result].filterMap (Entry.result? (β := β) i) = [] :=
          List.filterMap_cons_none (if_neg (Ne.symm hi))
        rw [Function.update_of_ne hi, hother, List.append_nil]
    · cases List.mem_singleton.mp hmem
      exact hbefore

/-- It is enough that each step is silent, a move of the object, or the moment of one call. -/
theorem Linearizable.of_points (hinit : ∀ s, S.init s → ∀ i, view s i = .unborn)
    (hstep : ∀ s a t, S.Reachable s → S.step s a = some t →
      Point O (abs s) (abs t) (view s) (view t)) : Linearizable S O abs view := by
  intro s₀ as t hs₀ hrun
  -- on the run from its end: the last step extends the order found for the steps before it
  induction as using List.reverseRecOn generalizing t with
  | nil =>
    cases hrun
    have hempty : Explains O (abs s₀) [] (abs s₀) (view s₀) := by
      refine ⟨rfl, fun i => ?_⟩
      rw [hinit s₀ hs₀ i]
      rfl
    refine ⟨[], hempty, fun as₁ as₂ s has hs => ?_⟩
    obtain ⟨rfl, rfl⟩ := List.append_eq_nil_iff.mp has.symm
    cases hs
    exact ⟨⟨[], List.prefix_rfl, hempty⟩, fun _ _ _ _ _ hmem => absurd hmem List.not_mem_nil⟩
  | append_singleton bs a ih =>
    rw [TransitionSystem.exec_append] at hrun
    obtain ⟨u, hu, hrun⟩ := Option.bind_eq_some_iff.mp hrun
    obtain ⟨t', ht, hrun⟩ := Option.bind_eq_some_iff.mp hrun
    cases hrun
    obtain ⟨L, hL, hcuts⟩ := ih u hu
    have hreach : S.Reachable u := .exec (.init hs₀) hu
    obtain ⟨L', hL', hnew⟩ := hL.extend (hstep u a t hreach ht)
    refine ⟨L ++ L', hL', fun as₁ as₂ s has hs => ?_⟩
    rcases List.eq_nil_or_concat as₂ with rfl | ⟨cs, c, rfl⟩
    · -- the whole run
      rw [List.append_nil] at has
      rw [← has, TransitionSystem.exec_append, hu] at hs
      cases hs.symm.trans (TransitionSystem.exec_singleton ht)
      exact ⟨⟨_, List.prefix_rfl, hL'⟩,
        fun i op hi op' result hmem => absurd hmem (hL'.not_mem hi)⟩
    · -- a cut before the last step: what it explains, the order of the shorter run explains
      rw [List.concat_eq_append, ← List.append_assoc] at has
      obtain ⟨rfl, -⟩ := List.append_inj' has rfl
      obtain ⟨⟨L₁, hprefix, hL₁⟩, hops⟩ := hcuts as₁ cs s rfl hs
      refine ⟨⟨L₁, hprefix.trans (List.prefix_append L L'), hL₁⟩,
        fun i op hi op' result hmem => ?_⟩
      rcases List.mem_append.mp hmem with hmem | hmem
      · exact hops i op hi op' result hmem
      · -- an operation pending at the cut is the one whose point the last step is
        rw [TransitionSystem.exec_append, hs] at hu
        have hpending := hnew i op' result hmem
        rcases pending_exec hstep (.exec (.init hs₀) hs) hu hi with hsame | hdecided
        · exact Status.pending.inj (hpending.symm.trans hsame)
        · rw [hpending] at hdecided
          exact absurd rfl hdecided

end Linearizability
