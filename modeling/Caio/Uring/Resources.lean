import Caio.Uring.Setup

namespace Caio.Uring.Setup

/-- By what the process names a resource. -/
inductive Handle
  | mapping (ptr : ℕ)
  | fd (num : Int32)
deriving DecidableEq

def Resource.handle : Resource → Handle
  | .mapping ptr _ => .mapping ptr
  | .fd num => .fd num

namespace AIOContext

variable {self : AIOContext} {k : Answers} {params : Params} {r : Tried}

def Valid (self : AIOContext) : Prop :=
  self.cqRingPtr = self.sqRingPtr → self.cqRingPtr = none ∨ self.cqRingSize = 0

/-- What the fields stand for, without the test of the pointers in `AIOContext_dealloc`. -/
def slots (self : AIOContext) : List Resource :=
  unmap self.sqRingPtr self.sqRingSize ++ unmap self.sqes self.sqesSize ++
    unmap self.cqRingPtr self.cqRingSize ++ closeFd self.uringFd ++ closeFd self.eventfdFd

theorem unmap_zero (ptr : Option ℕ) : unmap ptr 0 = [] := by
  cases ptr with
  | none => rfl
  | some p => exact if_neg fun h => h.2 rfl

theorem unmap_failed (size : ℕ) : unmap none size = [] := rfl

theorem unmap_address (ptr : Address) {size : ℕ} (hsize : size ≠ 0) :
    unmap (some ptr.num) size = [.mapping ptr.num size] :=
  if_pos ⟨ptr.ne_zero, hsize⟩

theorem closeFd_fd (fd : Fd) : closeFd fd.num = [.fd fd.num] := if_pos fd.nonneg

theorem closeFd_none : closeFd (-1) = [] := by decide

theorem map_pos {region : Region} {size : ℕ} {ptr : Address} (h : map k region size = .ok ptr) :
    size ≠ 0 := by
  intro hzero
  rw [map, if_pos hzero] at h
  cases h

theorem mmap_error {region : Region} {size : ℕ} {errno : Int32}
    (h : map k region size = .error errno) (hsize : size ≠ 0) : k.mmap region = .error errno :=
  (if_neg hsize).symm.trans h

theorem dealloc_sublist (self : AIOContext) : self.dealloc.Sublist self.slots := by
  refine ((List.Sublist.append_left ?_ _).append_right _).append_right _
  split
  · exact List.nil_sublist _
  · exact List.Sublist.refl _

theorem Valid.dealloc (h : self.Valid) : self.dealloc = self.slots := by
  unfold AIOContext.dealloc slots
  split
  -- equal pointers: no second mapping, whether mmap has failed or the rings share one
  · rename_i heq
    rcases h heq with hnone | hzero
    · rw [hnone]
      rfl
    · rw [hzero, unmap_zero]
  · rfl

/-- What a part has acquired takes the place of `old`. -/
def Replaces (old : List Resource) (x : AIOContext) (r : Tried) : Prop :=
  ∃ l l', x.slots = l ++ old ++ l' ∧ r.self.slots = l ++ r.acquired ++ l'

theorem Replaces.keeps {old : List Resource} (h : Replaces old self r) :
    r.Keeps Resource.handle (fun x => x.slots.map Resource.handle) self := by
  obtain ⟨l, l', hx, hr⟩ := h
  have hbefore : self.slots.map Resource.handle =
      l.map Resource.handle ++ old.map Resource.handle ++ l'.map Resource.handle := by
    rw [hx, List.map_append, List.map_append]
  refine .replace hbefore ?_
  rw [hr, List.map_append, List.map_append]

theorem Replaces.exact (h : Replaces [] self r) : r.Exact id slots self := by
  obtain ⟨l, l', hx, hr⟩ := h
  rw [List.append_nil] at hx
  exact .replace hx (hr.trans (by rw [List.map_id]))

theorem parse_replaces (k : Answers) (self : AIOContext) : Replaces [] self (self.parse k) := by
  unfold parse
  split <;> exact ⟨self.slots, [], by simp, by simp [slots]⟩

theorem openEventfd_replaces (k : Answers) (self : AIOContext) :
    Replaces (closeFd self.eventfdFd) self (self.openEventfd k) := by
  unfold openEventfd
  split
  · exact ⟨_, [], (List.append_nil _).symm, by simp [fail, slots, closeFd_none]⟩
  · exact ⟨_, [], (List.append_nil _).symm, by simp [slots, closeFd_fd]⟩

theorem uringFd_replaces (self : AIOContext) (errno : Int32) :
    Replaces (closeFd self.uringFd) self ({ self with uringFd := -1 }.fail errno) :=
  ⟨_, closeFd self.eventfdFd, rfl, by simp [fail, slots, closeFd_none]⟩

theorem takeRing_replaces (fd : Fd) (flags : UInt32) (self : AIOContext) :
    Replaces (closeFd self.uringFd) self (self.takeRing fd flags) :=
  ⟨_, closeFd self.eventfdFd, rfl, by simp [takeRing, slots, closeFd_fd]⟩

theorem mapSqRing_replaces (k : Answers) (size : ℕ) (self : AIOContext) :
    Replaces (unmap self.sqRingPtr self.sqRingSize) self (self.mapSqRing k size) := by
  refine ⟨[], unmap self.sqes self.sqesSize ++ unmap self.cqRingPtr self.cqRingSize ++
    closeFd self.uringFd ++ closeFd self.eventfdFd, by simp [slots], ?_⟩
  unfold mapSqRing
  split
  · simp [fail, slots, unmap_failed]
  · rename_i hmap
    simp [slots, unmap_address _ (map_pos hmap)]

theorem mapCqRing_replaces (k : Answers) (size : ℕ) (self : AIOContext) :
    Replaces (unmap self.cqRingPtr self.cqRingSize) self (self.mapCqRing k size) := by
  refine ⟨unmap self.sqRingPtr self.sqRingSize ++ unmap self.sqes self.sqesSize,
    closeFd self.uringFd ++ closeFd self.eventfdFd, by simp [slots], ?_⟩
  unfold mapCqRing
  split
  · simp [fail, slots, unmap_failed]
  · rename_i hmap
    simp [slots, unmap_address _ (map_pos hmap)]

theorem shareRing_replaces (self : AIOContext) :
    Replaces (unmap self.cqRingPtr self.cqRingSize) self self.shareRing :=
  ⟨unmap self.sqRingPtr self.sqRingSize ++ unmap self.sqes self.sqesSize,
    closeFd self.uringFd ++ closeFd self.eventfdFd, by simp [slots],
    by simp [shareRing, slots, unmap_zero]⟩

theorem mapSqes_replaces (k : Answers) (params : Params) (self : AIOContext) :
    Replaces (unmap self.sqes self.sqesSize) self (self.mapSqes k params) := by
  refine ⟨unmap self.sqRingPtr self.sqRingSize, unmap self.cqRingPtr self.cqRingSize ++
    closeFd self.uringFd ++ closeFd self.eventfdFd, by simp [slots], ?_⟩
  unfold mapSqes
  dsimp only
  split
  · simp [fail, locateSq, slots, unmap_failed]
  · rename_i hmap
    simp [locateSq, locateCq, slots, unmap_address _ (map_pos hmap)]

theorem registerEventfd_replaces (k : Answers) (self : AIOContext) :
    Replaces [] self (self.registerEventfd k) := by
  unfold registerEventfd
  split <;> exact ⟨self.slots, [], by simp, by simp [fail]⟩

theorem mapRings_keeps (k : Answers) (params : Params) (self : AIOContext) :
    (self.mapRings k params).Keeps Resource.handle (fun x => x.slots.map Resource.handle) self := by
  unfold mapRings
  split
  · exact (mapSqRing_replaces ..).keeps.andThen fun _ => (shareRing_replaces _).keeps
  · exact (mapSqRing_replaces ..).keeps.andThen fun _ => (mapCqRing_replaces ..).keeps

theorem initRing_keeps (k : Answers) (self : AIOContext) :
    (self.initRing k).Keeps Resource.handle (fun x => x.slots.map Resource.handle) self := by
  unfold initRing
  split
  · exact (uringFd_replaces ..).keeps
  · rename_i fd params flags _
    have hring := (takeRing_replaces fd flags self).keeps.andThen fun _ =>
      mapRings_keeps k params (self.takeRing fd flags).self
    refine (hring.andThen fun _ => ?_).andThen fun _ => ?_
    · exact (mapSqes_replaces ..).keeps
    · exact (registerEventfd_replaces ..).keeps

theorem init_keeps (self : AIOContext) (k : Answers) :
    (self.init k).Keeps Resource.handle (fun x => x.slots.map Resource.handle) self :=
  ((parse_replaces k self).keeps.andThen fun _ => (openEventfd_replaces ..).keeps).andThen
    fun _ => initRing_keeps ..

theorem Replaces.dropped {old : List Resource} {h : Handle} (hr : Replaces old self r)
    (hnodup : (self.slots.map Resource.handle).Nodup) (hmem : h ∈ old.map Resource.handle)
    (hnew : h ∉ r.acquired.map Resource.handle) : h ∉ r.self.slots.map Resource.handle := by
  obtain ⟨l, l', hx, hr⟩ := hr
  rw [hx, List.map_append, List.map_append] at hnodup
  obtain ⟨hleft, -, hright⟩ := List.nodup_append.mp hnodup
  obtain ⟨-, -, hleft⟩ := List.nodup_append.mp hleft
  rw [hr, List.map_append, List.map_append, List.mem_append, List.mem_append]
  rintro ((hl | hacquired) | hl')
  · exact hleft h hl h hmem rfl
  · exact hnew hacquired
  · exact hright h (List.mem_append_right _ hmem) h hl' rfl

theorem init_of_args (self : AIOContext) {w : Bool} (hargs : k.args = .ok w) :
    ∃ m, self.init k = (openEventfd k { self with maxRequests := m }).andThen (initRing k) := by
  unfold init parse
  rw [hargs]
  exact ⟨_, rfl⟩

theorem init_drops {w : Bool} {h : Handle} (hargs : k.args = .ok w)
    (hnodup : (self.slots.map Resource.handle).Nodup)
    (hmem : h ∈ (closeFd self.eventfdFd).map Resource.handle)
    (hnew : h ∉ (self.init k).acquired.map Resource.handle) :
    h ∉ (self.init k).self.slots.map Resource.handle := by
  obtain ⟨m, heq⟩ := init_of_args self hargs
  rw [heq] at hnew ⊢
  have hdropped := (openEventfd_replaces k { self with maxRequests := m }).dropped hnodup hmem
  cases herr : (openEventfd k { self with maxRequests := m }).err with
  | some err =>
    rw [Attempt.andThen_of_err herr] at hnew ⊢
    exact hdropped hnew
  | none =>
    rw [Attempt.andThen_of_ok herr] at hnew ⊢
    rw [List.map_append, List.mem_append, not_or] at hnew
    -- what is in the fields at the end was there after the eventfd or has come since
    intro hslots
    exact ((initRing_keeps ..).sub h hslots).elim (hdropped hnew.1) hnew.2

theorem mapSqRing_cases (k : Answers) (size : ℕ) (self : AIOContext) :
    (∃ errno, map k .sqRing size = .error errno ∧ self.mapSqRing k size =
      { self with sqRingSize := size, sqRingPtr := none }.fail errno) ∨
    ∃ ptr, map k .sqRing size = .ok ptr ∧ self.mapSqRing k size =
      ⟨{ self with sqRingSize := size, sqRingPtr := some ptr.num },
        [.mapping ptr.num size], none⟩ := by
  unfold mapSqRing
  split
  · exact .inl ⟨_, ‹_›, rfl⟩
  · exact .inr ⟨_, ‹_›, rfl⟩

theorem mapCqRing_cases (k : Answers) (size : ℕ) (self : AIOContext) :
    (∃ errno, map k .cqRing size = .error errno ∧ self.mapCqRing k size =
      { self with cqRingSize := size, cqRingPtr := none }.fail errno) ∨
    ∃ ptr, map k .cqRing size = .ok ptr ∧ self.mapCqRing k size =
      ⟨{ self with cqRingSize := size, cqRingPtr := some ptr.num },
        [.mapping ptr.num size], none⟩ := by
  unfold mapCqRing
  split
  · exact .inl ⟨_, ‹_›, rfl⟩
  · exact .inr ⟨_, ‹_›, rfl⟩

theorem mapSqes_cases (k : Answers) (params : Params) (self : AIOContext) :
    (∃ errno, map k .sqes (params.sqEntries.toNat * 64) = .error errno ∧ self.mapSqes k params =
      { self.locateSq params with
        sqesSize := params.sqEntries.toNat * 64, sqes := none }.fail errno) ∨
    ∃ ptr, map k .sqes (params.sqEntries.toNat * 64) = .ok ptr ∧ self.mapSqes k params =
      ⟨{ self.locateSq params with
          sqesSize := params.sqEntries.toNat * 64, sqes := some ptr.num }.locateCq params,
        [.mapping ptr.num (params.sqEntries.toNat * 64)], none⟩ := by
  unfold mapSqes
  dsimp only
  split
  · exact .inl ⟨_, ‹_›, rfl⟩
  · exact .inr ⟨_, ‹_›, rfl⟩

/-- The rings as they are mapped, in one mapping or in two. -/
inductive Rings (k : Answers) (params : Params) (x : AIOContext) : Tried → Prop
  | shared {ptr : Address} (hsingle : params.features &&& featSingleMmap ≠ 0)
      (hmap : map k .sqRing (max (x.sqBytes params) (cqBytes params)) = .ok ptr) :
    Rings k params x
      ⟨{ x with
          sqRingPtr := some ptr.num
          sqRingSize := max (x.sqBytes params) (cqBytes params)
          cqRingPtr := some ptr.num
          cqRingSize := 0 },
        [.mapping ptr.num (max (x.sqBytes params) (cqBytes params))], none⟩
  | separate {sq cq : Address} (hsingle : ¬ params.features &&& featSingleMmap ≠ 0)
      (hsq : map k .sqRing (x.sqBytes params) = .ok sq)
      (hcq : map k .cqRing (cqBytes params) = .ok cq) :
    Rings k params x
      ⟨{ x with
          sqRingPtr := some sq.num
          sqRingSize := x.sqBytes params
          cqRingPtr := some cq.num
          cqRingSize := cqBytes params },
        [.mapping sq.num (x.sqBytes params), .mapping cq.num (cqBytes params)], none⟩

def regions (params : Params) : List Region :=
  if params.features &&& featSingleMmap ≠ 0 then [.sqRing, .sqes] else [.sqRing, .cqRing, .sqes]

/-- A mapping of a ring that has failed. -/
structure Unmapped (k : Answers) (params : Params) (x : AIOContext) (r : Tried) : Prop where
  err : r.err ≠ none
  uringFd : r.self.uringFd = x.uringFd
  sqHead : r.self.sqHead = x.sqHead
  sqes : r.self.sqes = x.sqes
  pointers : r.self.cqRingPtr = r.self.sqRingPtr → r.self.cqRingPtr = none
  refused : 0 < x.sqBytes params → 0 < cqBytes params →
    ∃ region ∈ regions params, ∃ errno, k.mmap region = .error errno

theorem mapRings_cases (k : Answers) (params : Params) (self : AIOContext) :
    Unmapped k params self (self.mapRings k params) ∨
      Rings k params self (self.mapRings k params) := by
  unfold mapRings
  split
  · rename_i hsingle
    obtain ⟨errno, hmap, heq⟩ | ⟨ptr, hmap, heq⟩ :=
      mapSqRing_cases k (max (self.sqBytes params) (cqBytes params)) self
    · rw [heq, Attempt.andThen_of_err rfl]
      refine .inl ⟨Option.some_ne_none _, rfl, rfl, rfl, id, fun hsq _ => ⟨.sqRing, ?_, errno, ?_⟩⟩
      · rw [regions, if_pos hsingle]
        exact List.mem_cons_self
      · exact mmap_error hmap (Nat.ne_of_gt (Nat.lt_of_lt_of_le hsq (Nat.le_max_left ..)))
    · rw [heq, Attempt.andThen_of_ok rfl]
      exact .inr (.shared hsingle hmap)
  · rename_i hsingle
    obtain ⟨errno, hmap, heq⟩ | ⟨sq, hsq, heq⟩ := mapSqRing_cases k (self.sqBytes params) self
    · rw [heq, Attempt.andThen_of_err rfl]
      refine .inl ⟨Option.some_ne_none _, rfl, rfl, rfl, id, fun hsq _ => ⟨.sqRing, ?_, errno, ?_⟩⟩
      · rw [regions, if_neg hsingle]
        exact List.mem_cons_self
      · exact mmap_error hmap (Nat.ne_of_gt hsq)
    · rw [heq, Attempt.andThen_of_ok rfl]
      obtain ⟨errno, hcq, heq⟩ | ⟨cq, hcq, heq⟩ := mapCqRing_cases k (cqBytes params)
        { self with sqRingSize := self.sqBytes params, sqRingPtr := some sq.num }
      · rw [heq]
        refine .inl ⟨Option.some_ne_none _, rfl, rfl, rfl, fun _ => rfl,
          fun _ hpos => ⟨.cqRing, ?_, errno, mmap_error hcq (Nat.ne_of_gt hpos)⟩⟩
        rw [regions, if_neg hsingle]
        exact List.mem_cons_of_mem _ List.mem_cons_self
      · rw [heq]
        exact .inr (.separate hsingle hsq hcq)

theorem mapRings_valid (k : Answers) (params : Params) (self : AIOContext) :
    (self.mapRings k params).Ensures Resource.handle Valid := by
  have hcases := mapRings_cases k params self
  generalize self.mapRings k params = r at hcases
  intro hnodup
  rcases hcases with hr | hr
  · exact fun heq => .inl (hr.pointers heq)
  · cases hr with
    | shared => exact fun _ => .inr rfl
    | @separate sq cq =>
      intro heq
      have hptr : cq.num = sq.num := Option.some.inj heq
      have hnew := (List.nodup_cons.mp hnodup).1
      exact absurd (List.mem_singleton.mpr (congrArg Handle.mapping hptr.symm)) hnew

theorem initRing_valid (k : Answers) (hself : self.Valid) :
    (self.initRing k).Ensures Resource.handle Valid := by
  unfold initRing
  split
  · exact fun _ => hself
  · rename_i fd params flags _
    have hring : (self.takeRing fd flags).Ensures Resource.handle Valid := fun _ => hself
    refine ((hring.andThen fun _ => mapRings_valid k params _).andThen fun h _ => ?_).andThen
      fun h _ => ?_
    · unfold mapSqes
      dsimp only
      split <;> exact h
    · unfold registerEventfd
      split <;> exact h

theorem init_valid (k : Answers) (hself : self.Valid) :
    (self.init k).Ensures Resource.handle Valid := by
  refine (Attempt.Ensures.andThen (P := Valid) (fun _ => ?_) fun h _ => ?_).andThen
    fun h => initRing_valid k h
  · unfold parse
    split <;> exact hself
  · unfold openEventfd
    split <;> exact h

/-- Without descriptors and mappings. -/
structure Blank (x : AIOContext) : Prop where
  uringFd : x.uringFd = -1
  sqRingPtr : x.sqRingPtr = none
  cqRingPtr : x.cqRingPtr = none
  sqes : x.sqes = none

theorem mapRings_exact (k : Answers) (params : Params) (hsq : self.sqRingPtr = none)
    (hcq : self.cqRingPtr = none) : (self.mapRings k params).Exact id slots self := by
  have hfirst (size : ℕ) : Replaces [] self (self.mapSqRing k size) := by
    simpa only [hsq, unmap_failed] using mapSqRing_replaces k size self
  have hkeep (size : ℕ) : (self.mapSqRing k size).self.cqRingPtr = none := by
    unfold mapSqRing
    split <;> exact hcq
  unfold mapRings
  split
  · refine (hfirst _).exact.andThen fun _ => Replaces.exact ?_
    simpa only [hkeep, unmap_failed] using shareRing_replaces (self.mapSqRing k _).self
  · refine (hfirst _).exact.andThen fun _ => Replaces.exact ?_
    simpa only [hkeep, unmap_failed] using mapCqRing_replaces k _ (self.mapSqRing k _).self

theorem mapRings_sqes (k : Answers) (params : Params) (self : AIOContext) :
    (self.mapRings k params).self.sqes = self.sqes := by
  have hcases := mapRings_cases k params self
  generalize self.mapRings k params = r at hcases
  rcases hcases with hr | hr
  · exact hr.sqes
  · cases hr <;> rfl

theorem initRing_exact (k : Answers) (hself : self.Blank) :
    (self.initRing k).Exact id slots self := by
  have hold : closeFd self.uringFd = [] := by rw [hself.uringFd, closeFd_none]
  unfold initRing
  split
  · refine Replaces.exact ?_
    simpa only [hold] using uringFd_replaces self _
  · rename_i fd params flags _
    have htake : Replaces [] self (self.takeRing fd flags) := by
      simpa only [hold] using takeRing_replaces fd flags self
    refine ((htake.exact.andThen fun _ => ?_).andThen fun _ => ?_).andThen fun _ => ?_
    · exact mapRings_exact k params hself.sqRingPtr hself.cqRingPtr
    · have hsqes : (((self.takeRing fd flags).andThen (mapRings k params)).self).sqes = none :=
        (mapRings_sqes k params _).trans hself.sqes
      have hreplaces := mapSqes_replaces k params
        ((self.takeRing fd flags).andThen (mapRings k params)).self
      rw [hsqes] at hreplaces
      exact hreplaces.exact
    · exact (registerEventfd_replaces ..).exact

theorem init_exact (k : Answers) (hself : self.Blank) (heventfd : self.eventfdFd = -1) :
    (self.init k).Exact id slots self := by
  have hparse : (self.parse k).self.Blank ∧ (self.parse k).self.eventfdFd = -1 := by
    unfold parse
    split <;> exact ⟨⟨hself.1, hself.2, hself.3, hself.4⟩, heventfd⟩
  obtain ⟨hblank, hfd⟩ := hparse
  refine ((parse_replaces k self).exact.andThen fun _ => ?_).andThen fun herr => ?_
  · refine Replaces.exact ?_
    simpa only [hfd, closeFd_none] using openEventfd_replaces k (self.parse k).self
  · refine initRing_exact k ?_
    unfold Attempt.andThen openEventfd
    split
    · exact hblank
    · split <;> exact ⟨hblank.1, hblank.2, hblank.3, hblank.4⟩

/-- The ring that the kernel has made, with its mappings. -/
def mapRing (k : Answers) (fd : Fd) (params : Params) (flags : UInt32) (self : AIOContext) :
    Tried :=
  ((self.takeRing fd flags).andThen (mapRings k params)).andThen (mapSqes k params)

/-- Without one of its mappings the pointers into the other are not set either. -/
structure Unset (k : Answers) (params : Params) (x : AIOContext) (r : Tried) : Prop where
  err : r.err ≠ none
  uringFd : r.self.uringFd = x.uringFd
  heads : r.self.sqHead = x.sqHead ∨ r.self.cqHead = x.cqHead
  refused : 0 < x.sqBytes params → 0 < cqBytes params → 0 < params.sqEntries.toNat →
    ∃ region ∈ regions params, ∃ errno, k.mmap region = .error errno

theorem mapRing_cases (k : Answers) (fd : Fd) (params : Params) (flags : UInt32)
    (self : AIOContext) :
    Unset k params (self.takeRing fd flags).self (self.mapRing k fd params flags) ∨
    ∃ r ptr, Rings k params (self.takeRing fd flags).self r ∧
      map k .sqes (params.sqEntries.toNat * 64) = .ok ptr ∧
      self.mapRing k fd params flags =
        ⟨(locateSq params { r.self with
            sqesSize := params.sqEntries.toNat * 64, sqes := some ptr.num }).locateCq params,
          .fd fd.num :: r.acquired ++ [.mapping ptr.num (params.sqEntries.toNat * 64)], none⟩ := by
  have hcases := mapRings_cases k params (self.takeRing fd flags).self
  unfold mapRing Attempt.andThen
  generalize (self.takeRing fd flags).self.mapRings k params = r at hcases
  dsimp only [takeRing] at *
  rcases hcases with hr | hr
  · obtain ⟨err, herr⟩ := Option.ne_none_iff_exists'.mp hr.err
    rw [herr]
    exact .inl ⟨Option.some_ne_none _, hr.uringFd, .inl hr.sqHead,
      fun hsq hcq _ => hr.refused hsq hcq⟩
  · have hok : r.err = none := by cases hr <;> rfl
    have huringFd : r.self.uringFd = fd.num := by cases hr <;> rfl
    have hcqHead : r.self.cqHead = self.cqHead := by cases hr <;> rfl
    rw [hok]
    obtain ⟨errno, hmap, heq⟩ | ⟨ptr, hmap, heq⟩ := mapSqes_cases k params r.self
    · dsimp only at *
      rw [heq]
      refine .inl ⟨Option.some_ne_none _, huringFd, .inr hcqHead,
        fun _ _ hpos => ⟨.sqes, ?_, errno, ?_⟩⟩
      · unfold regions
        split <;> simp
      · exact mmap_error hmap (Nat.mul_ne_zero (Nat.ne_of_gt hpos) (by decide))
    · dsimp only at *
      rw [heq]
      exact .inr ⟨r, ptr, hr, hmap, rfl⟩

theorem locateSq_slots (x : AIOContext) : (x.locateSq params).slots = x.slots := rfl

theorem locateCq_slots (x : AIOContext) : (x.locateCq params).slots = x.slots := rfl

theorem mapRing_slots {fd : Fd} {flags : UInt32} (h : (self.mapRing k fd params flags).err = none) :
    ∀ x ∈ (self.mapRing k fd params flags).self.slots,
      x ∈ (self.mapRing k fd params flags).acquired ++ closeFd self.eventfdFd := by
  rcases mapRing_cases k fd params flags self with hr | ⟨r, ptr, hr, hmap, heq⟩
  · exact absurd h hr.err
  · rw [heq]
    have hfd : (self.takeRing fd flags).self.uringFd = fd.num := rfl
    have heventfd : (self.takeRing fd flags).self.eventfdFd = self.eventfdFd := rfl
    generalize (self.takeRing fd flags).self = taken at *
    dsimp only
    rw [locateCq_slots, locateSq_slots]
    cases hr with
    | shared hsingle hsq =>
      simp only [slots, unmap_address _ (map_pos hsq), unmap_zero, unmap_address _ (map_pos hmap),
        hfd, heventfd, closeFd_fd, List.mem_append, List.mem_cons]
      grind
    | separate hsingle hsq hcq =>
      simp only [slots, unmap_address _ (map_pos hsq), unmap_address _ (map_pos hcq),
        unmap_address _ (map_pos hmap), hfd, heventfd, closeFd_fd, List.mem_append, List.mem_cons]
      grind

theorem initRing_of_ok {fd : Fd} {flags : UInt32}
    (h : setupRing (k.setup (self.maxRequests + 1)) (flagTable (k.args.toOption.getD false)) 0 =
      .ok (fd, params, flags)) :
    self.initRing k = (self.mapRing k fd params flags).andThen (registerEventfd k) := by
  rw [initRing, h]
  rfl

theorem register_self (r : Tried) : (r.andThen (registerEventfd k)).self = r.self := by
  unfold Attempt.andThen registerEventfd
  split
  · rfl
  · split <;> rfl

theorem register_acquired (r : Tried) : (r.andThen (registerEventfd k)).acquired = r.acquired := by
  unfold Attempt.andThen registerEventfd
  split
  · rfl
  · split <;> exact List.append_nil _

theorem initRing_slots (h : (self.initRing k).err = none) :
    ∀ x ∈ (self.initRing k).self.slots,
      x ∈ (self.initRing k).acquired ++ closeFd self.eventfdFd := by
  cases hsetup : setupRing (k.setup (self.maxRequests + 1))
      (flagTable (k.args.toOption.getD false)) 0 with
  | error errno =>
    rw [initRing, hsetup] at h
    cases h
  | ok ring =>
    obtain ⟨fd, params, flags⟩ := ring
    rw [initRing_of_ok hsetup] at h ⊢
    rw [register_self, register_acquired]
    exact mapRing_slots (Attempt.andThen_err_none.mp h).1

theorem slots_of_ok (h : (self.init k).err = none) :
    ∀ x ∈ (self.init k).self.slots, x ∈ (self.init k).acquired := by
  obtain ⟨hstart, hring⟩ := Attempt.andThen_err_none.mp h
  obtain ⟨hparse, heventfd⟩ := Attempt.andThen_err_none.mp hstart
  unfold init
  rw [Attempt.andThen_of_ok hstart, Attempt.andThen_of_ok hparse]
  rw [Attempt.andThen_of_ok hparse] at hring
  generalize (self.parse k).self = x at *
  have hopen : (x.openEventfd k).acquired = closeFd (x.openEventfd k).self.eventfdFd := by
    unfold openEventfd at *
    split
    · exact closeFd_none.symm
    · exact (closeFd_fd _).symm
  intro y hy
  dsimp only at *
  rw [hopen]
  rcases List.mem_append.mp (initRing_slots hring y hy) with hring | heventfd
  · exact List.mem_append_right _ hring
  · exact List.mem_append_left _ (List.mem_append_right _ heventfd)

end AIOContext

def context : HandleClass AIOContext Answers Handle where
  Valid := AIOContext.Valid
  new := .new
  init self k := ((self.init k).self, (self.init k).acquired.map Resource.handle)
  released self := self.dealloc.map Resource.handle

open AIOContext

theorem dealloc_init_new {k : Answers}
    (h : ((AIOContext.new.init k).acquired.map Resource.handle).Nodup) :
    (AIOContext.new.init k).self.dealloc.Perm (AIOContext.new.init k).acquired := by
  have hvalid : (AIOContext.new.init k).self.Valid := init_valid k (fun _ => .inl rfl) h
  have hexact : (AIOContext.new.init k).Exact id slots .new :=
    init_exact k ⟨rfl, rfl, rfl, rfl⟩ rfl
  rw [Attempt.Exact, List.map_id] at hexact
  rw [hvalid.dealloc]
  exact hexact

theorem context_released {x : AIOContext} (hx : x.Valid) :
    context.released x = x.slots.map Resource.handle :=
  congrArg _ hx.dealloc

theorem context_lawful : context.Lawful where
  valid_new := fun _ => .inl rfl
  valid_init _ k hx := init_valid k hx
  first _ h := (dealloc_init_new h).map _
  again x k hx h hmem := by
    have hslots := ((dealloc_sublist _).map Resource.handle).subset hmem
    rw [context_released hx]
    exact (init_keeps x k).sub h hslots
  nodup x k hx hnodup hacquired hnew := by
    refine List.Nodup.sublist ((dealloc_sublist _).map Resource.handle) ?_
    rw [context_released hx] at hnodup hnew
    exact (init_keeps x k).nodup hnodup hacquired fun h hh => hnew h hh

theorem proper (n : ℕ) : Handles.Proper context n := .inr rfl

variable {s t u : Handles AIOContext Handle} {k : Answers} {i n : ℕ} {x : AIOContext}

theorem context_inv (hs : (Handles.system context).Reachable s) : Handles.Inv context s := by
  refine Handles.inv context_lawful (hs.mono fun s b _ => ?_)
  cases b with
  | finalise i => exact fun n _ _ => proper n
  | acquire | release | new | init => trivial

/-- In a process with any number of Contexts, initialised any number of times, and with any other
descriptors and mappings: no Context gives back what it does not have; one that was initialised
once, also without success, gives back all it has, each mapping with its size. -/
theorem resources_returned (hs : (Handles.system context).Reachable s) :
    s.strayed = [] ∧
      (∀ (i : ℕ) x, s.objects[i]? = some (.live 1 x) →
        ∀ h, s.owner h = some (.object i) ↔ h ∈ x.dealloc.map Resource.handle) ∧
      (∀ i n : ℕ, s.objects[i]? = some (.dead n) → n ≤ 1 → ∀ h, s.owner h ≠ some (.object i)) ∧
      ∀ k, ((AIOContext.new.init k).acquired.map Resource.handle).Nodup →
        (AIOContext.new.init k).self.dealloc.Perm (AIOContext.new.init k).acquired := by
  have hinv := context_inv hs
  refine ⟨hinv.strayed, fun i x hi h => ⟨fun hh => ?_, hinv.own i 1 x hi (proper 1) h⟩,
    fun i n hi hn => hinv.nothing_left hi hn, fun k => dealloc_init_new⟩
  obtain ⟨st, hst, hacc⟩ := hinv.owned h i hh
  cases hi.symm.trans hst
  exact (hacc.resolve_left (Nat.lt_irrefl 1)).2

/-- A ring of 64 entries for the 33 that a default Context asks for. -/
def params64 : Params where
  sqEntries := 64
  cqEntries := 128
  features := featSingleMmap
  sqOff := { head := 0, tail := 4, ringMask := 16, ringEntries := 24, flags := 36, array := 2112 }
  cqOff := { head := 8, tail := 12, ringMask := 20, ringEntries := 28, cqes := 64 }

def granted (eventfd ring : Fd) (rings sqes : Address) : Answers where
  maxRequests := 0
  args := .ok false
  eventfd := .ok eventfd
  setup _ _ := .ok (ring, params64)
  mmap
    | .sqes => .ok sqes
    | _ => .ok rings
  register := .ok ()

def process : Handles AIOContext Handle where
  owner h := if h ∈ [.fd 0, .fd 1, .fd 2] then some .program else none
  objects := []
  strayed := []

theorem process_init : (Handles.system context).init process := by
  refine ⟨fun h i => ?_, rfl, rfl⟩
  unfold process
  dsimp only
  split
  · exact fun heq => by cases heq
  · exact (Option.some_ne_none _).symm

theorem eventfd_nonneg : (0 : Int32) ≤ 3 := by decide

theorem ringFd_nonneg : (0 : Int32) ≤ 4 := by decide

theorem ringsAddr_ne_zero : 4096 ≠ 0 := by decide

theorem sqesAddr_ne_zero : 8192 ≠ 0 := by decide

def answers : Answers :=
  granted ⟨3, eventfd_nonneg⟩ ⟨4, ringFd_nonneg⟩ ⟨4096, ringsAddr_ne_zero⟩ ⟨8192, sqesAddr_ne_zero⟩

theorem resources_returned_once :
    ∃ s, (Handles.system context).exec process [.new, .init 0 answers, .finalise 0] = some s ∧
      s.strayed = [] ∧ ∀ h, s.owner h ≠ some (.object 0) := by
  have hrun : (Handles.system context).exec process [.new, .init 0 answers, .finalise 0] =
      some _ := rfl
  have h := resources_returned (.exec (.init process_init) hrun)
  exact ⟨_, hrun, h.1, h.2.2.1 0 1 rfl (Nat.le_refl 1)⟩

/-- A second `__init__` loses the descriptor of the eventfd as soon as its arguments are right, and
if it succeeds all that the Context had: nobody ever gives it back. -/
theorem second_init_loses {w : Bool} {bs : List (Handles.Action Answers Handle)}
    (hs : (Handles.system context).Reachable s) (hi : s.objects[i]? = some (.live n x))
    (hargs : k.args = .ok w) (hst : (Handles.system context).step s (.init i k) = some t)
    (hrun : (Handles.system context).exec t bs = some u) :
    (∀ h ∈ (closeFd x.eventfdFd).map Resource.handle, u.owner h = some (.object i)) ∧
      ((x.init k).err = none →
        ∀ h ∈ x.dealloc.map Resource.handle, u.owner h = some (.object i)) := by
  have hinv := context_inv hs
  have hvalid := hinv.valid i n x hi
  have hnodup := hinv.nodup i n x hi (proper n)
  have hfree : ∀ h ∈ (x.init k).acquired.map Resource.handle, s.owner h = none := by
    obtain ⟨st, hi', hst⟩ := Option.bind_eq_some_iff.mp hst
    cases hi.symm.trans hi'
    exact (Option.ite_none_right_eq_some.mp hst).1.2
  have hnew {h : Handle} (hmem : h ∈ context.released x) :
      h ∉ (x.init k).acquired.map Resource.handle := fun hacquired =>
    hinv.ne_owner hi (proper n) hmem (hfree h hacquired) (Option.some_ne_none _).symm
  have hlost {h : Handle} (hmem : h ∈ context.released x)
      (hslots : h ∉ (x.init k).self.slots.map Resource.handle) : u.owner h = some (.object i) := by
    have hdealloc : h ∉ context.released (x.init k).self := fun hdealloc =>
      hslots (((dealloc_sublist _).map Resource.handle).subset hdealloc)
    have hlost := Handles.Lost.of_init hinv hi (proper n) hst hmem hdealloc
    exact hlost.exec context_lawful proper (context_inv (.step hs trivial hst)) hrun
  refine ⟨fun h hmem => ?_, fun hok h hmem => hlost hmem fun hslots => ?_⟩
  · have hreleased : h ∈ context.released x := by
      rw [context_released hvalid]
      obtain ⟨y, hy, rfl⟩ := List.mem_map.mp hmem
      exact List.mem_map_of_mem (List.mem_append_right _ hy)
    rw [context_released hvalid] at hnodup
    exact hlost hreleased (init_drops hargs hnodup hmem (hnew hreleased))
  · obtain ⟨y, hy, rfl⟩ := List.mem_map.mp hslots
    exact hnew hmem (List.mem_map_of_mem (slots_of_ok hok y hy))

def answersAgain : Answers :=
  granted ⟨5, by decide⟩ ⟨6, by decide⟩ ⟨12288, by decide⟩ ⟨16384, by decide⟩

/-- Both descriptors of the first call are left after the end of the Context. -/
theorem second_init_loses_both :
    ∃ s, (Handles.system context).exec process
        [.new, .init 0 answers, .init 0 answersAgain, .finalise 0] = some s ∧
      s.owner (.fd 3) = some (.object 0) ∧ s.owner (.fd 4) = some (.object 0) := by
  have hrun : (Handles.system context).exec process [.new, .init 0 answers] = some _ := rfl
  have h := second_init_loses (i := 0) (k := answersAgain) (.exec (.init process_init) hrun) rfl rfl
    rfl (show (Handles.system context).exec _ [.finalise 0] = some _ from rfl)
  exact ⟨_, rfl, h.1 (.fd 3) (by decide), h.2 (by decide) (.fd 4) (by decide)⟩

end Caio.Uring.Setup
