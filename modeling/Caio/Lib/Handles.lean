import Mathlib.Data.List.Nodup
import Mathlib.Logic.Function.Basic
import Caio.Lib.Table
import Caio.Lib.Transition

/-- A class of objects. The initialiser may run any number of times, and with every outcome `A` of
its system calls; the finaliser runs once. -/
structure HandleClass (φ A κ : Type*) where
  /-- What holds of an object between two calls. -/
  Valid : φ → Prop
  new : φ
  /-- The object afterwards, and the handles that the initialiser has acquired, also when it fails.
  -/
  init : φ → A → φ × List κ
  /-- What the finaliser gives back. -/
  released : φ → List κ

namespace Handles

inductive Owner
  | program
  | object (i : ℕ)
deriving DecidableEq

inductive Stage (φ : Type*)
  /-- Initialised `n` times. -/
  | live (n : ℕ) (x : φ)
  | dead (n : ℕ)

end Handles

open Handles

structure Handles (φ κ : Type*) where
  /-- Whose a handle is; `none` if it is free. -/
  owner : κ → Option Owner
  objects : List (Stage φ)
  /-- Handles that an object has given back without having them. -/
  strayed : List (ℕ × κ)

namespace Handles

variable {φ A κ : Type*} [DecidableEq κ]

inductive Action (A κ : Type*)
  | acquire (h : κ)
  | release (h : κ)
  | new
  | init (i : ℕ) (a : A)
  | finalise (i : ℕ)

/-- The handles of the list go to object `i`. -/
def give (owner : κ → Option Owner) (i : ℕ) (hs : List κ) : κ → Option Owner := fun h =>
  if h ∈ hs then some (.object i) else owner h

/-- Object `i` gives the handles of the list back, one after the other. -/
def close (i : ℕ) : List κ → Handles φ κ → Handles φ κ
  | [], s => s
  | h :: hs, s => close i hs { s with
    owner := Function.update s.owner h none
    strayed := if s.owner h = some (.object i) then s.strayed else s.strayed ++ [(i, h)] }

def step (O : HandleClass φ A κ) (s : Handles φ κ) : Action A κ → Option (Handles φ κ)
  | .acquire h =>
    if s.owner h = none then
      some { s with owner := Function.update s.owner h (some .program) }
    else none
  | .release h =>
    if s.owner h = some .program then some { s with owner := Function.update s.owner h none }
    else none
  | .new => some { s with objects := s.objects ++ [.live 0 O.new] }
  | .init i a => s.objects[i]?.bind fun
    | .live n x =>
      -- the system hands out free handles only, and each one once
      if (O.init x a).2.Nodup ∧ ∀ h ∈ (O.init x a).2, s.owner h = none then
        some { s with
          owner := give s.owner i (O.init x a).2
          objects := s.objects.set i (.live (n + 1) (O.init x a).1) }
      else none
    | .dead _ => none
  | .finalise i => s.objects[i]?.bind fun
    | .live n x =>
      some (close i (O.released x) { s with objects := s.objects.set i (.dead n) })
    | .dead _ => none

def system (O : HandleClass φ A κ) : TransitionSystem (Handles φ κ) (Action A κ) where
  init s := (∀ h i, s.owner h ≠ some (.object i)) ∧ s.objects = [] ∧ s.strayed = []
  step := step O

variable {s t : Handles φ κ} {i j : ℕ} {h : κ} {hs : List κ}

theorem close_objects (i : ℕ) (hs : List κ) (s : Handles φ κ) :
    (close i hs s).objects = s.objects := by
  induction hs generalizing s with
  | nil => rfl
  | cons h hs ih => exact ih _

theorem close_owner (i : ℕ) (hs : List κ) (s : Handles φ κ) (h : κ) :
    (close i hs s).owner h = if h ∈ hs then none else s.owner h := by
  induction hs generalizing s with
  | nil => exact (if_neg List.not_mem_nil).symm
  | cons g hs ih =>
    rw [close, ih]
    dsimp only
    by_cases hg : h = g
    · rw [hg, Function.update_self, if_pos List.mem_cons_self, ite_self]
    · rw [Function.update_of_ne hg]
      simp only [List.mem_cons, hg, false_or]

/-- An object that gives back what it has strays nowhere. -/
theorem close_strayed (hnodup : hs.Nodup) (hown : ∀ h ∈ hs, s.owner h = some (.object i)) :
    (close i hs s).strayed = s.strayed := by
  induction hs generalizing s with
  | nil => rfl
  | cons h hs ih =>
    obtain ⟨hnew, hnodup⟩ := List.nodup_cons.mp hnodup
    rw [close, ih hnodup fun g hg => ?_]
    · exact if_pos (hown h List.mem_cons_self)
    · have hne : g ≠ h := fun heq => hnew (heq ▸ hg)
      exact (Function.update_of_ne hne ..).trans (hown g (List.mem_cons_of_mem h hg))

/-- It strays as soon as one of its handles is not its own. -/
theorem close_strays {h : κ} (hmem : h ∈ hs) (hother : s.owner h ≠ some (.object i)) :
    ∃ g, (i, g) ∈ (close i hs s).strayed := by
  have hkeep (hs : List κ) (s : Handles φ κ) (x : ℕ × κ) (hx : x ∈ s.strayed) :
      x ∈ (close i hs s).strayed := by
    induction hs generalizing s with
    | nil => exact hx
    | cons g hs ih =>
      refine ih _ ?_
      dsimp only
      split
      · exact hx
      · exact List.mem_append_left _ hx
  induction hs generalizing s with
  | nil => cases hmem
  | cons g hs ih =>
    by_cases hg : s.owner g = some (.object i)
    · rcases List.mem_cons.mp hmem with rfl | hmem
      · exact absurd hg hother
      · refine ih hmem ?_
        dsimp only
        by_cases hgh : h = g
        · rw [hgh, Function.update_self]
          exact (Option.some_ne_none _).symm
        · rwa [Function.update_of_ne hgh]
    · refine ⟨g, hkeep hs _ (i, g) ?_⟩
      rw [if_neg hg]
      exact List.mem_append_right _ List.mem_cons_self

end Handles

/-- What an initialiser leaves to the finaliser. -/
structure HandleClass.Lawful {φ A κ : Type*} (O : HandleClass φ A κ) : Prop where
  valid_new : O.Valid O.new
  valid_init : ∀ x a, O.Valid x → (O.init x a).2.Nodup → O.Valid (O.init x a).1
  /-- The first time it is all that was acquired. -/
  first : ∀ a, (O.init O.new a).2.Nodup → (O.released (O.init O.new a).1).Perm (O.init O.new a).2
  again : ∀ x a, O.Valid x →
    ∀ h ∈ O.released (O.init x a).1, h ∈ O.released x ∨ h ∈ (O.init x a).2
  nodup : ∀ x a, O.Valid x → (O.released x).Nodup → (O.init x a).2.Nodup →
    (∀ h ∈ (O.init x a).2, h ∉ O.released x) → (O.released (O.init x a).1).Nodup

namespace Handles

variable {φ A κ : Type*} (O : HandleClass φ A κ)

/-- The finaliser finds an object that it can finalise after `n` calls of the initialiser. -/
def Proper (n : ℕ) : Prop := 0 < n ∨ O.released O.new = []

/-- Whether an object still answers for handle `h`. -/
def Stage.Accounts (h : κ) : Stage φ → Prop
  | .live n x => 1 < n ∨ n = 1 ∧ h ∈ O.released x
  | .dead n => 1 < n

structure Inv (s : Handles φ κ) : Prop where
  valid : ∀ (i n : ℕ) x, s.objects[i]? = some (.live n x) → O.Valid x
  new : ∀ (i : ℕ) x, s.objects[i]? = some (.live 0 x) → x = O.new
  nodup : ∀ (i n : ℕ) x, s.objects[i]? = some (.live n x) → Proper O n → (O.released x).Nodup
  own : ∀ (i n : ℕ) x, s.objects[i]? = some (.live n x) → Proper O n →
    ∀ h ∈ O.released x, s.owner h = some (.object i)
  owned : ∀ h i, s.owner h = some (.object i) →
    ∃ st, s.objects[i]? = some st ∧ st.Accounts O h
  strayed : s.strayed = []

/-- An object is finalised only when the finaliser can. -/
def Initialised (s : Handles φ κ) : Action A κ → Prop
  | .finalise i => ∀ n x, s.objects[i]? = some (.live n x) → Proper O n
  | _ => True

variable {O} {s t : Handles φ κ} {i j n : ℕ} {x : φ} {a : A} {h : κ}

theorem Inv.ne_owner (hs : Inv O s) (hi : s.objects[i]? = some (.live n x)) (hn : Proper O n)
    (hmem : h ∈ O.released x) {o : Option Owner} (ho : s.owner h = o)
    (hne : o ≠ some (.object i)) : False :=
  hne (ho.symm.trans (hs.own i n x hi hn h hmem))

theorem Inv.append (hO : O.Lawful) (hs : Inv O s) :
    Inv O { s with objects := s.objects ++ [.live 0 O.new] } := by
  have hcases {i : ℕ} {st : Stage φ} (hi : (s.objects ++ [.live 0 O.new])[i]? = some st) :
      s.objects[i]? = some st ∨ i = s.objects.length ∧ st = .live 0 O.new :=
    Table.getElem?_append_one_cases hi
  refine ⟨fun i n x hi => ?_, fun i x hi => ?_, fun i n x hi hn => ?_, fun i n x hi hn h hh => ?_,
    fun h i hh => ?_, hs.strayed⟩
  · rcases hcases hi with hi | ⟨-, heq⟩
    · exact hs.valid i n x hi
    · cases heq
      exact hO.valid_new
  · rcases hcases hi with hi | ⟨-, heq⟩
    · exact hs.new i x hi
    · cases heq
      rfl
  · rcases hcases hi with hi | ⟨-, heq⟩
    · exact hs.nodup i n x hi hn
    · cases heq
      rw [hn.resolve_left (Nat.lt_irrefl 0)]
      exact List.nodup_nil
  · rcases hcases hi with hi | ⟨-, heq⟩
    · exact hs.own i n x hi hn h hh
    · cases heq
      rw [hn.resolve_left (Nat.lt_irrefl 0)] at hh
      cases hh
  · obtain ⟨st, hst, hacc⟩ := hs.owned h i hh
    exact ⟨st, Table.getElem?_append_of_some hst _, hacc⟩

/-- Nothing is left of an object that was initialised once at most. -/
theorem Inv.nothing_left (hs : Inv O s) (hi : s.objects[i]? = some (.dead n)) (hn : n ≤ 1) (h : κ) :
    s.owner h ≠ some (.object i) := by
  intro hh
  obtain ⟨st, hst, hacc⟩ := hs.owned h i hh
  cases hi.symm.trans hst
  exact absurd hacc (Nat.not_lt.mpr hn)

section

variable [DecidableEq κ]

theorem give_of_mem {owner : κ → Option Owner} {hs : List κ} (hmem : h ∈ hs) :
    give owner i hs h = some (.object i) := if_pos hmem

theorem give_of_not_mem {owner : κ → Option Owner} {hs : List κ} (hmem : h ∉ hs) :
    give owner i hs h = owner h := if_neg hmem

theorem Inv.update (hs : Inv O s) {o o' : Option Owner} (ho : s.owner h = o)
    (hne : ∀ i, o ≠ some (.object i)) (hne' : ∀ i, o' ≠ some (.object i)) :
    Inv O { s with owner := Function.update s.owner h o' } := by
  refine ⟨hs.valid, hs.new, hs.nodup, fun i n x hi hn g hg => ?_, fun g i hg => ?_, hs.strayed⟩
  · have hgh : g ≠ h := fun heq => hs.ne_owner hi hn (heq ▸ hg) ho (hne i)
    exact (Function.update_of_ne hgh ..).trans (hs.own i n x hi hn g hg)
  · by_cases hgh : g = h
    · subst hgh
      exact absurd ((Function.update_self ..).symm.trans hg) (hne' i)
    · exact hs.owned g i ((Function.update_of_ne hgh ..).symm.trans hg)

theorem Inv.init (hO : O.Lawful) (hs : Inv O s) (hi : s.objects[i]? = some (.live n x))
    (hnodup : (O.init x a).2.Nodup) (hfree : ∀ h ∈ (O.init x a).2, s.owner h = none) :
    Inv O { s with
      owner := give s.owner i (O.init x a).2
      objects := s.objects.set i (.live (n + 1) (O.init x a).1) } := by
  have hset := Table.getElem?_set_self hi (.live (n + 1) (O.init x a).1)
  -- the first call starts from a new object, a later one from what the finaliser would give back
  have hfirst : n = 0 → x = O.new := fun hn => hs.new i x (hn ▸ hi)
  have hproper : n ≠ 0 → Proper O n := fun hn => .inl (Nat.pos_of_ne_zero hn)
  refine ⟨fun j m y hj => ?_, fun j y hj => ?_, fun j m y hj hm => ?_, fun j m y hj hm h hh => ?_,
    fun h j hh => ?_, hs.strayed⟩
  · rcases Table.getElem?_set_cases hj with ⟨-, heq⟩ | ⟨-, hj⟩
    · cases heq
      exact hO.valid_init x a (hs.valid i n x hi) hnodup
    · exact hs.valid j m y hj
  · rcases Table.getElem?_set_cases hj with ⟨-, heq⟩ | ⟨-, hj⟩
    · cases heq
    · exact hs.new j y hj
  · rcases Table.getElem?_set_cases hj with ⟨-, heq⟩ | ⟨-, hj⟩
    · cases heq
      by_cases hn : n = 0
      · rw [hfirst hn] at hnodup ⊢
        exact (hO.first a hnodup).symm.nodup hnodup
      · refine hO.nodup x a (hs.valid i n x hi) (hs.nodup i n x hi (hproper hn)) hnodup
          fun h hh hmem => ?_
        exact hs.ne_owner hi (hproper hn) hmem (hfree h hh) (Option.some_ne_none _).symm
    · exact hs.nodup j m y hj hm
  · rcases Table.getElem?_set_cases hj with ⟨rfl, heq⟩ | ⟨hne, hj⟩
    · cases heq
      by_cases hmem : h ∈ (O.init x a).2
      · exact give_of_mem hmem
      · refine (give_of_not_mem hmem).trans ?_
        by_cases hn : n = 0
        · rw [hfirst hn] at hh hmem hnodup
          exact absurd ((hO.first a hnodup).mem_iff.mp hh) hmem
        · have hold := (hO.again x a (hs.valid j n x hi) h hh).resolve_right hmem
          exact hs.own j n x hi (hproper hn) h hold
    · have howner := hs.own j m y hj hm h hh
      have hmem : h ∉ (O.init x a).2 := fun hmem => by
        rw [hfree h hmem] at howner
        cases howner
      exact (give_of_not_mem hmem).trans howner
  · by_cases hmem : h ∈ (O.init x a).2
    · cases (give_of_mem hmem).symm.trans hh
      refine ⟨_, hset, ?_⟩
      by_cases hn : n = 0
      · subst hn
        rw [hfirst rfl] at hmem hnodup ⊢
        exact .inr ⟨rfl, (hO.first a hnodup).mem_iff.mpr hmem⟩
      · exact .inl (Nat.succ_lt_succ (Nat.pos_of_ne_zero hn))
    · obtain ⟨st, hst, hacc⟩ := hs.owned h j ((give_of_not_mem hmem).symm.trans hh)
      by_cases hji : j = i
      · subst hji
        cases hi.symm.trans hst
        refine ⟨_, hset, .inl ?_⟩
        rcases hacc with hlt | ⟨heq, -⟩
        · exact Nat.lt_succ_of_lt hlt
        · exact Nat.lt_succ_of_le (Nat.le_of_eq heq.symm)
      · exact ⟨st, (List.getElem?_set_ne (Ne.symm hji)).trans hst, hacc⟩

theorem Inv.finalise (hs : Inv O s) (hi : s.objects[i]? = some (.live n x)) (hn : Proper O n) :
    Inv O (close i (O.released x) { s with objects := s.objects.set i (.dead n) }) := by
  have hown := hs.own i n x hi hn
  have hother {j m : ℕ} {y : φ} (hj : s.objects[j]? = some (.live m y)) (hm : Proper O m)
      (hji : j ≠ i) : ∀ h ∈ O.released y, h ∉ O.released x := fun h hh hmem =>
    hs.ne_owner hj hm hh (hown h hmem) fun heq => hji (by cases heq; rfl)
  refine ⟨fun j m y hj => ?_, fun j y hj => ?_, fun j m y hj hm => ?_, fun j m y hj hm h hh => ?_,
    fun h j hh => ?_, (close_strayed (s := { s with objects := s.objects.set i (.dead n) })
      (hs.nodup i n x hi hn) hown).trans hs.strayed⟩
  all_goals
    simp only [close_objects, close_owner] at *
  · rcases Table.getElem?_set_cases hj with ⟨-, heq⟩ | ⟨-, hj⟩
    · cases heq
    · exact hs.valid j m y hj
  · rcases Table.getElem?_set_cases hj with ⟨-, heq⟩ | ⟨-, hj⟩
    · cases heq
    · exact hs.new j y hj
  · rcases Table.getElem?_set_cases hj with ⟨-, heq⟩ | ⟨-, hj⟩
    · cases heq
    · exact hs.nodup j m y hj hm
  · rcases Table.getElem?_set_cases hj with ⟨-, heq⟩ | ⟨hji, hj⟩
    · cases heq
    · rw [if_neg (hother hj hm hji h hh)]
      exact hs.own j m y hj hm h hh
  · obtain ⟨hmem, hh⟩ := Option.ite_none_left_eq_some.mp hh
    obtain ⟨st, hst, hacc⟩ := hs.owned h j hh
    by_cases hji : j = i
    · subst hji
      cases hi.symm.trans hst
      exact ⟨_, Table.getElem?_set_self hi _, hacc.resolve_right fun hone => hmem hone.2⟩
    · exact ⟨st, (List.getElem?_set_ne (Ne.symm hji)).trans hst, hacc⟩

theorem Inv.step (hO : O.Lawful) (hs : Inv O s) {b : Action A κ} (hb : Initialised O s b)
    (hst : (system O).step s b = some t) : Inv O t := by
  cases b with
  | acquire h =>
    obtain ⟨hfree, hst⟩ := Option.ite_none_right_eq_some.mp hst
    cases hst
    exact hs.update hfree (fun _ => (Option.some_ne_none _).symm) fun _ heq => by cases heq
  | release h =>
    obtain ⟨hmine, hst⟩ := Option.ite_none_right_eq_some.mp hst
    cases hst
    exact hs.update hmine (fun _ heq => by cases heq) fun _ => (Option.some_ne_none _).symm
  | new =>
    cases hst
    exact hs.append hO
  | init i a =>
    obtain ⟨st, hi, hst⟩ := Option.bind_eq_some_iff.mp hst
    cases st with
    | dead n => cases hst
    | live n x =>
      obtain ⟨⟨hnodup, hfree⟩, hst⟩ := Option.ite_none_right_eq_some.mp hst
      cases hst
      exact hs.init hO hi hnodup hfree
  | finalise i =>
    obtain ⟨st, hi, hst⟩ := Option.bind_eq_some_iff.mp hst
    cases st with
    | dead n => cases hst
    | live n x =>
      cases hst
      exact hs.finalise hi (hb n x hi)

theorem inv_init (hs : (system O).init s) : Inv O s := by
  obtain ⟨howner, hobjects, hstrayed⟩ := hs
  refine ⟨fun i n x hi => ?_, fun i x hi => ?_, fun i n x hi => ?_, fun i n x hi => ?_,
    fun h i hh => ?_, hstrayed⟩
  · rw [hobjects] at hi
    cases hi
  · rw [hobjects] at hi
    cases hi
  · rw [hobjects] at hi
    cases hi
  · rw [hobjects] at hi
    cases hi
  · exact absurd hh (howner h i)

theorem inv (hO : O.Lawful) (hs : (system O).ReachableBy (Initialised O) s) : Inv O s :=
  hs.invariant (fun _ => inv_init) fun _ _ _ hs hb hst => hs.step hO hb hst

/-- A finaliser strays exactly if its object was not initialised. -/
theorem Inv.strayed_iff (hO : O.Lawful) (hs : Inv O s) {b : Action A κ}
    (hst : (system O).step s b = some t) : t.strayed = [] ↔ Initialised O s b := by
  refine ⟨fun hnil => ?_, fun hb => (hs.step hO hb hst).strayed⟩
  cases b with
  | finalise i =>
    intro n x hi
    obtain ⟨st, hst', hst⟩ := Option.bind_eq_some_iff.mp hst
    cases hi.symm.trans hst'
    cases hst
    by_contra hn
    obtain ⟨hzero, hsome⟩ := not_or.mp hn
    have hzero := Nat.eq_zero_of_not_pos hzero
    subst hzero
    obtain ⟨h, hmem⟩ := List.exists_mem_of_ne_nil _ hsome
    have hx := hs.new i x hi
    have hother : s.owner h ≠ some (.object i) := fun hh => by
      obtain ⟨st, hst, hacc⟩ := hs.owned h i hh
      cases hi.symm.trans hst
      rcases hacc with hlt | ⟨heq, -⟩
      · cases hlt
      · cases heq
    obtain ⟨g, hg⟩ := close_strays (s := { s with objects := s.objects.set i (.dead 0) })
      (hx ▸ hmem) hother
    rw [hnil] at hg
    cases hg
  | acquire | release | new | init => trivial

/-- No finaliser of a run strays if and only if all of them find an object that was initialised. -/
theorem visits_iff_meets (hO : O.Lawful) (hs : Inv O s) {bs : List (Action A κ)}
    (hrun : (system O).exec s bs = some t) :
    (system O).Visits (fun s => s.strayed = []) s bs ↔ (system O).Meets (Initialised O) s bs := by
  refine TransitionSystem.visits_iff_meets (I := fun s => s.strayed = [] → Inv O s) ?_
    (fun _ => hs) hs.strayed hrun
  intro s b t hs hnil hst
  have hiff := (hs hnil).strayed_iff hO hst
  exact ⟨fun ht => (hs hnil).step hO (hiff.mp ht) hst, hiff⟩

end

/-- A handle that object `i` has acquired and its finaliser does not know. -/
structure Lost (O : HandleClass φ A κ) (s : Handles φ κ) (i : ℕ) (h : κ) : Prop where
  owner : s.owner h = some (.object i)
  unknown : ∀ n x, s.objects[i]? = some (.live n x) → 0 < n ∧ h ∉ O.released x

variable [DecidableEq κ]

theorem Lost.step (hO : O.Lawful) (hs : Inv O s) (hlost : Lost O s i h) {b : Action A κ}
    (hb : Initialised O s b) (hst : (system O).step s b = some t) : Lost O t i h := by
  obtain ⟨howner, hunknown⟩ := hlost
  cases b with
  | acquire g =>
    obtain ⟨hfree, hst⟩ := Option.ite_none_right_eq_some.mp hst
    cases hst
    have hne : h ≠ g := fun heq => by
      rw [heq, hfree] at howner
      cases howner
    exact ⟨(Function.update_of_ne hne ..).trans howner, hunknown⟩
  | release g =>
    obtain ⟨hmine, hst⟩ := Option.ite_none_right_eq_some.mp hst
    cases hst
    have hne : h ≠ g := fun heq => by
      rw [heq, hmine] at howner
      cases howner
    exact ⟨(Function.update_of_ne hne ..).trans howner, hunknown⟩
  | new =>
    cases hst
    refine ⟨howner, fun n x hi => ?_⟩
    rcases Table.getElem?_append_one_cases hi with hi | ⟨hend, -⟩
    · exact hunknown n x hi
    · -- the owner of a handle is an object that was there before
      obtain ⟨st, hst, -⟩ := hs.owned h i howner
      exact absurd (Table.lt_length hst) (hend ▸ Nat.lt_irrefl _)
  | init j a =>
    obtain ⟨st, hj, hst⟩ := Option.bind_eq_some_iff.mp hst
    cases st with
    | dead n => cases hst
    | live n x =>
      obtain ⟨⟨-, hfree⟩, hst⟩ := Option.ite_none_right_eq_some.mp hst
      cases hst
      have hmem : h ∉ (O.init x a).2 := fun hmem => by
        rw [hfree h hmem] at howner
        cases howner
      refine ⟨(give_of_not_mem hmem).trans howner, fun m y hi => ?_⟩
      rcases Table.getElem?_set_cases hi with ⟨rfl, heq⟩ | ⟨-, hi⟩
      · cases heq
        obtain ⟨-, hx⟩ := hunknown n x hj
        have hvalid := hs.valid i n x hj
        exact ⟨Nat.succ_pos n, fun hy => (hO.again x a hvalid h hy).elim hx hmem⟩
      · exact hunknown m y hi
  | finalise j =>
    obtain ⟨st, hj, hst⟩ := Option.bind_eq_some_iff.mp hst
    cases st with
    | dead n => cases hst
    | live n x =>
      cases hst
      have hmem : h ∉ O.released x := fun hmem => by
        have hj' := hs.own j n x hj (hb n x hj) h hmem
        cases howner.symm.trans hj'
        exact (hunknown n x hj).2 hmem
      refine ⟨?_, fun m y hi => ?_⟩
      · rw [close_owner, if_neg hmem]
        exact howner
      · rw [close_objects] at hi
        rcases Table.getElem?_set_cases hi with ⟨-, heq⟩ | ⟨-, hi⟩
        · cases heq
        · exact hunknown m y hi

/-- An object that is initialised again loses what its finaliser would have given back and will not
any more. -/
theorem Lost.of_init (hs : Inv O s) (hi : s.objects[i]? = some (.live n x)) (hn : Proper O n)
    (hst : (system O).step s (.init i a) = some t) (hmem : h ∈ O.released x)
    (hnew : h ∉ O.released (O.init x a).1) : Lost O t i h := by
  have howner := hs.own i n x hi hn h hmem
  obtain ⟨st, hi', hst⟩ := Option.bind_eq_some_iff.mp hst
  cases hi.symm.trans hi'
  obtain ⟨⟨-, hfree⟩, hst⟩ := Option.ite_none_right_eq_some.mp hst
  cases hst
  have hacquired : h ∉ (O.init x a).2 := fun hacquired => by
    rw [hfree h hacquired] at howner
    cases howner
  refine ⟨(give_of_not_mem hacquired).trans howner, fun m y hy => ?_⟩
  cases (Table.getElem?_set_self hi _).symm.trans hy
  exact ⟨Nat.succ_pos n, hnew⟩

theorem Lost.exec (hO : O.Lawful) (hproper : ∀ n, Proper O n) (hs : Inv O s)
    (hlost : Lost O s i h) {bs : List (Action A κ)} (hrun : (system O).exec s bs = some t) :
    t.owner h = some (.object i) := by
  have hall : ∀ s b, Initialised O s b := fun s b => by
    cases b with
    | finalise i => exact fun n _ _ => hproper n
    | acquire | release | new | init => trivial
  have hkeep := TransitionSystem.exec_invariant (I := fun s => Inv O s ∧ Lost O s i h)
    (fun s b t _ hs hst => ⟨hs.1.step hO (hall s b) hst, hs.2.step hO hs.1 (hall s b) hst⟩)
    ⟨hs, hlost⟩ hrun
  exact hkeep.2.owner

end Handles

/-- What a part of an initialiser has done; with an error the rest does not run. -/
structure Attempt (φ ε κ : Type*) where
  self : φ
  acquired : List κ
  err : Option ε

namespace Attempt

variable {φ ε κ κ' : Type*}

def andThen (r : Attempt φ ε κ) (f : φ → Attempt φ ε κ) : Attempt φ ε κ :=
  match r.err with
  | some _ => r
  | none => ⟨(f r.self).self, r.acquired ++ (f r.self).acquired, (f r.self).err⟩

/-- The finaliser gives back what it did before, without some, and what was acquired; `g` is how
the system names it. -/
structure Keeps (g : κ → κ') (released : φ → List κ') (x : φ) (r : Attempt φ ε κ) : Prop where
  sub : ∀ h ∈ released r.self, h ∈ released x ∨ h ∈ r.acquired.map g
  nodup : (released x).Nodup → (r.acquired.map g).Nodup →
    (∀ h ∈ r.acquired.map g, h ∉ released x) → (released r.self).Nodup

/-- It gives back what it did before and all that was acquired. -/
def Exact (g : κ → κ') (released : φ → List κ') (x : φ) (r : Attempt φ ε κ) : Prop :=
  (released r.self).Perm (released x ++ r.acquired.map g)

/-- If the system has named all that it has acquired differently, the object has property `P`. -/
def Ensures (g : κ → κ') (P : φ → Prop) (r : Attempt φ ε κ) : Prop :=
  (r.acquired.map g).Nodup → P r.self

variable {g : κ → κ'} {released : φ → List κ'} {P : φ → Prop} {x : φ} {r : Attempt φ ε κ}
  {f : φ → Attempt φ ε κ} {l old l' : List κ'}

theorem andThen_of_err {err : ε} (h : r.err = some err) : r.andThen f = r := by
  rw [andThen, h]

theorem andThen_of_ok (h : r.err = none) :
    r.andThen f = ⟨(f r.self).self, r.acquired ++ (f r.self).acquired, (f r.self).err⟩ := by
  rw [andThen, h]

theorem andThen_err_none : (r.andThen f).err = none ↔ r.err = none ∧ (f r.self).err = none := by
  cases herr : r.err with
  | some err => simp [andThen_of_err herr, herr]
  | none => simp [andThen_of_ok herr]

theorem Keeps.andThen (h : Keeps g released x r)
    (hf : r.err = none → Keeps g released r.self (f r.self)) :
    Keeps g released x (r.andThen f) := by
  cases herr : r.err with
  | some err =>
    rw [andThen_of_err herr]
    exact h
  | none =>
    have hf := hf herr
    rw [andThen_of_ok herr]
    refine ⟨fun y hy => ?_, fun hx hnodup hnew => ?_⟩
    all_goals dsimp only at *
    · rw [List.map_append]
      rcases hf.sub y hy with hy | hy
      · exact (h.sub y hy).imp_right (List.mem_append_left _)
      · exact .inr (List.mem_append_right _ hy)
    · rw [List.map_append] at hnodup hnew
      obtain ⟨hfirst, hsecond, hdisjoint⟩ := List.nodup_append.mp hnodup
      have hself := h.nodup hx hfirst fun y hy => hnew y (List.mem_append_left _ hy)
      refine hf.nodup hself hsecond fun y hy hmem => ?_
      rcases h.sub y hmem with hold | hacquired
      · exact hnew y (List.mem_append_right _ hy) hold
      · exact hdisjoint y hacquired y hy rfl

theorem Ensures.andThen (h : Ensures g P r) (hf : P r.self → Ensures g P (f r.self)) :
    Ensures g P (r.andThen f) := by
  cases herr : r.err with
  | some err =>
    rw [andThen_of_err herr]
    exact h
  | none =>
    intro hnodup
    rw [andThen_of_ok herr] at hnodup ⊢
    dsimp only at *
    rw [List.map_append] at hnodup
    obtain ⟨hfirst, hsecond, -⟩ := List.nodup_append.mp hnodup
    exact hf (h hfirst) hsecond

theorem Exact.andThen (h : Exact g released x r)
    (hf : r.err = none → Exact g released r.self (f r.self)) :
    Exact g released x (r.andThen f) := by
  cases herr : r.err with
  | some err =>
    rw [andThen_of_err herr]
    exact h
  | none =>
    rw [andThen_of_ok herr, Exact, List.map_append, ← List.append_assoc]
    exact (hf herr).trans (h.append_right _)

/-- A part that overwrites what it does not give back, with what it has acquired. -/
theorem Keeps.replace (hx : released x = l ++ old ++ l')
    (hr : released r.self = l ++ r.acquired.map g ++ l') : Keeps g released x r := by
  rw [List.append_assoc] at hx hr
  refine ⟨fun y hy => ?_, fun hnodup hacquired hnew => ?_⟩
  · rw [hr] at hy
    rw [hx]
    rcases List.mem_append.mp hy with hy | hy
    · exact .inl (List.mem_append_left _ hy)
    · rcases List.mem_append.mp hy with hy | hy
      · exact .inr hy
      · exact .inl (List.mem_append_right _ (List.mem_append_right _ hy))
  · rw [hx] at hnodup hnew
    rw [hr]
    have hkeep : (l ++ l').Sublist (l ++ (old ++ l')) :=
      (List.sublist_append_right old l').append_left l
    refine ((List.perm_append_comm_assoc l (r.acquired.map g) l').nodup_iff).mpr ?_
    refine List.nodup_append.mpr ⟨hacquired, hnodup.sublist hkeep, fun y hy z hz heq => ?_⟩
    exact hnew y hy (heq ▸ hkeep.subset hz)

/-- A part that overwrites nothing that the finaliser gives back. -/
theorem Exact.replace (hx : released x = l ++ l')
    (hr : released r.self = l ++ r.acquired.map g ++ l') : Exact g released x r := by
  rw [Exact, hx, hr, List.append_assoc, List.append_assoc]
  exact List.perm_append_comm.append_left l

end Attempt
