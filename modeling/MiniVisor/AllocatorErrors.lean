import MiniVisor.AllocatorCalls

/-!
# Errors of the allocator

A call that returns an error has changed nothing (`CallRun.error_unchanged`). On most paths the
error comes before the first write. The exception is `define_free_memory`, which asks for a new
entry after it has looked at the neighbours : what it may have changed by then is that two entries
have become one, and that leaves an entry for the new range.

The calls are any calls, also a `free` of memory that is free already, which calls itself until the
rest of the range is not. Each such call but one leaves an entry behind, and no loop over a list
goes on for ever, so a call that does not return has trapped. -/

namespace MiniVisor

open Machine

section

variable {m m' : MemoryAllocator} {start size o x : ℕ} {e : MemoryError}
  {again : MemoryAllocator → ℕ → ℕ → Exec (MemoryResult Unit × MemoryAllocator)}

/-! ## Using memory -/

theorem useSize_ne_error : m.useSize size ≠ .ok (.error e, m') := fun h => by
  cases (useSize_eq_ok h).1

theorem useRange_unchanged (h : m.useRange x start size = .ok (.error e, m')) : m' = m := by
  unfold MemoryAllocator.useRange at h
  split_ifs at h with h1 h2 h3
  · obtain ⟨stop, -, h⟩ := Exec.bind_eq_ok.mp h
    split_ifs at h with h4
    · unfold MemoryAllocator.useEntry at h
      split at h
      · exact (Prod.mk.inj (Except.ok.inj h)).2.symm
      · obtain ⟨_, -, h⟩ := Exec.bind_eq_ok.mp h
        exact absurd h useSize_ne_error
      · obtain ⟨_, -, h⟩ := Exec.bind_eq_ok.mp h
        exact absurd h useSize_ne_error
    · simp only [Exec.bind_eq_ok] at h
      obtain ⟨_, -, _, -, h⟩ := h
      exact absurd h useSize_ne_error
  · exact (Prod.mk.inj (Except.ok.inj h)).2.symm
  · simp only [MemoryAllocator.useLastByte, Exec.bind_eq_ok] at h
    obtain ⟨_, -, _, -, _, -, _, -, _, -, h⟩ := h
    exact absurd h useSize_ne_error
  · obtain ⟨stop, -, h⟩ := Exec.bind_eq_ok.mp h
    split_ifs at h with h4
    · simp only [Exec.bind_eq_ok] at h
      obtain ⟨_, -, _, -, h⟩ := h
      exact absurd h useSize_ne_error
    · unfold MemoryAllocator.splitEntry at h
      split at h
      · exact (Prod.mk.inj (Except.ok.inj h)).2.symm
      · simp only [Exec.bind_eq_ok] at h
        obtain ⟨_, -, _, -, _, -, _, -, _, -, _, -, _, -, h⟩ := h
        exact absurd h useSize_ne_error

theorem defineUsedRange_unchanged {target : Option ℕ}
    (h : m.defineUsedRange start size target = .ok (.error e, m')) : m' = m := by
  unfold MemoryAllocator.defineUsedRange at h
  split_ifs at h with hz hf
  · exact (Prod.mk.inj (Except.ok.inj h)).2.symm
  · exact (Prod.mk.inj (Except.ok.inj h)).2.symm
  cases target with
  | some entry => exact useRange_unchanged h
  | none =>
    obtain ⟨_ | entry, -, h⟩ := Exec.bind_eq_ok.mp h
    · exact (Prod.mk.inj (Except.ok.inj h)).2.symm
    · exact useRange_unchanged h

theorem defineUsedMemory_unchanged {target : Option ℕ}
    (h : m.defineUsedMemory start size o target = .ok (.error e, m')) : m' = m := by
  unfold MemoryAllocator.defineUsedMemory at h
  split_ifs at h with ho hz hf
  · exact defineUsedRange_unchanged h
  · exact (Prod.mk.inj (Except.ok.inj h)).2.symm
  · exact (Prod.mk.inj (Except.ok.inj h)).2.symm
  · obtain ⟨⟨a, s⟩, -, h⟩ := Exec.bind_eq_ok.mp h
    exact defineUsedRange_unchanged h

/-- One iteration of `allocate` that ends with an error. -/
theorem allocateStep_unchanged {r : MemoryResult ℕ}
    (h : m.allocateStep size o x = .ok (.done (some (r, m')))) (hr : r = .error e) : m' = m := by
  unfold MemoryAllocator.allocateStep at h
  obtain ⟨_ | address, -, h⟩ := Exec.bind_eq_ok.mp h
  · dsimp only at h
    split at h <;> cases h
  · obtain ⟨⟨r₁, m₁⟩, h₁, h⟩ := Exec.bind_eq_ok.mp h
    cases h
    cases r₁ with
    | ok u => cases hr
    | error e₁ => exact defineUsedMemory_unchanged h₁

theorem allocateFrom_unchanged :
    ∀ {n k : ℕ}, m.allocateFrom size o n k = .ok (.error e, m') → m' = m
  | 0, _, h => (Prod.mk.inj (Except.ok.inj h)).2.symm
  | n + 1, k, h => by
    unfold MemoryAllocator.allocateFrom at h
    split at h
    · exact allocateFrom_unchanged h
    · split at h
      · exact (Prod.mk.inj (Except.ok.inj h)).2.symm
      · obtain ⟨found, hloop, h⟩ := Exec.bind_eq_ok.mp h
        cases found with
        | none => exact allocateFrom_unchanged h
        | some q =>
          cases h
          refine loop_ok (I := fun _ => True) (C := fun _ => True)
            (Q := fun r => ∀ m', r = some (.error e, m') → m' = m) (fun _ _ _ _ _ => trivial) ?_ _ _
            trivial (throughout_true ..) hloop m' rfl
          rintro i r - - hstep m₁ rfl
          exact allocateStep_unchanged hstep rfl

/-! ## Freeing memory -/

theorem insertEntry_error {old stop : ℕ} {next : Option ℕ}
    (h : m.insertEntry x old start stop size next = .ok (.error e, m')) : m.Full ∧ m' = m := by
  unfold MemoryAllocator.insertEntry at h
  split at h
  · rename_i hcreate
    exact ⟨MemoryAllocator.createMemoryEntry_eq_none.mp hcreate,
      (Prod.mk.inj (Except.ok.inj h)).2.symm⟩
  · simp only [Exec.bind_eq_ok] at h
    obtain ⟨_, -, _, -, _, -, _, -, _, -, h⟩ := h
    cases h

theorem finishExtended_ne_error {old : ℕ} : m.finishExtended x old size ≠ .ok (.error e, m') := by
  intro h
  simp only [MemoryAllocator.finishExtended, Exec.bind_eq_ok] at h
  obtain ⟨_, -, _, -, h⟩ := h
  cases h

/-- An entry that is deleted can be used again. -/
theorem deleteEntry_not_full (hx : x < poolSize) (h : m.deleteEntry x = .ok m') : ¬m'.Full := by
  obtain ⟨⟨pool, freeList⟩, -, h⟩ := Exec.bind_eq_ok.mp h
  cases h
  intro hfull
  have := hfull x hx
  simp [MemoryEntryPool.delete] at this

/-- Merging the neighbours leaves an entry for the new range. -/
theorem mergeNext_unchanged {c after : ℕ} {processed : Bool} (hc : c < poolSize)
    (h : m.mergeNext x c after processed = .ok m') (hfull : m'.Full) : m' = m := by
  obtain ⟨_, -, h⟩ := Exec.bind_eq_ok.mp h
  split_ifs at h
  · obtain ⟨pool, -, h⟩ := Exec.bind_eq_ok.mp h
    exact absurd hfull (deleteEntry_not_full hc h)
  · exact (Except.ok.inj h).symm

/-- From where it looks at the next entry, with a range that has become part of no entry. -/
theorem freeWithNext_unchanged {after old stop : ℕ} {processed : Bool} {next : Option ℕ}
    (hagain : processed = false → ∀ s z, again m s z = .ok (.error e, m') → m' = m)
    (hnext : ∀ c, next = some c → c < poolSize)
    (h : m.freeWithNext again x after old start stop size processed next = .ok (.error e, m')) :
    processed = false ∧ m' = m := by
  cases next with
  | none =>
    simp only [MemoryAllocator.freeWithNext] at h
    split_ifs at h with hp
    · exact absurd h finishExtended_ne_error
    · exact ⟨by simpa using hp, (insertEntry_error h).2⟩
  | some c =>
    simp only [MemoryAllocator.freeWithNext] at h
    by_cases hs : m.pool.startAddress c ≤ start
    · rw [if_pos hs] at h
      obtain ⟨hp, h⟩ := assert_bind_eq_ok.mp h
      refine ⟨hp, ?_⟩
      split_ifs at h with hend
      · exact (Prod.mk.inj (Except.ok.inj h)).2.symm
      · simp only [Exec.bind_eq_ok] at h
        obtain ⟨_, -, _, -, h⟩ := h
        exact hagain hp _ _ h
    · rw [if_neg hs] at h
      simp only [MemoryAllocator.extendNext, Exec.bind_eq_ok] at h
      obtain ⟨⟨m₁, b⟩, ⟨_, -, hext⟩, m₂, hm₂, h⟩ := h
      split_ifs at hext with htouch
      · obtain ⟨_, -, hext⟩ := Exec.bind_eq_ok.mp hext
        cases hext
        exact absurd h finishExtended_ne_error
      · cases hext
        dsimp only at h hm₂
        split_ifs at h with hp
        · exact absurd h finishExtended_ne_error
        · obtain ⟨hfull, rfl⟩ := insertEntry_error h
          exact ⟨by simpa using hp, mergeNext_unchanged (hnext c rfl) hm₂ hfull⟩

theorem extendEnd_unchanged {p p' : MemoryEntryPool} {after stop : ℕ}
    (h : MemoryAllocator.extendEnd p x after start stop = .ok (p', false)) : p' = p := by
  unfold MemoryAllocator.extendEnd at h
  split_ifs at h
  · obtain ⟨_, -, h⟩ := Exec.bind_eq_ok.mp h
    cases h
  · cases h
    rfl

theorem extendStart_unchanged {p p' : MemoryEntryPool} {stop : ℕ} {processed : Bool}
    (h : MemoryAllocator.extendStart p x start stop processed = .ok (p', false)) :
    processed = false ∧ p' = p := by
  unfold MemoryAllocator.extendStart at h
  split_ifs at h
  · obtain ⟨_, -, h⟩ := Exec.bind_eq_ok.mp h
    split_ifs at h
    · obtain ⟨_, -, h⟩ := Exec.bind_eq_ok.mp h
      cases h
    · cases h
      exact ⟨rfl, rfl⟩
  · cases h
    exact ⟨rfl, rfl⟩

theorem freeBeside_unchanged {stop : ℕ}
    (hagain : ∀ s z, again m s z = .ok (.error e, m') → m' = m)
    (h : m.freeBeside again x start stop size = .ok (.error e, m')) : m' = m := by
  simp only [MemoryAllocator.freeBeside, Exec.bind_eq_ok] at h
  obtain ⟨old, -, after, -, ⟨pool₁, b₁⟩, h₁, ⟨pool₂, b₂⟩, h₂, h⟩ := h
  have hnext : ∀ c, pool₂.getNextEntry x = some c → c < poolSize := by
    intro c hc
    obtain ⟨i, -, hi⟩ := Option.bind_eq_some_iff.mp hc
    unfold MemoryEntryPool.getMemoryEntry at hi
    split_ifs at hi with hlt
    cases hi
    exact hlt
  cases b₂ with
  | true => cases (freeWithNext_unchanged (fun hp => by cases hp) hnext h).1
  | false =>
    obtain ⟨rfl, rfl⟩ := extendStart_unchanged h₂
    obtain rfl := extendEnd_unchanged h₁
    exact (freeWithNext_unchanged (fun _ => hagain) hnext h).2

theorem freeRange_unchanged {stop : ℕ} (hagain : ∀ s z, again m s z = .ok (.error e, m') → m' = m)
    (h : m.freeRange again x start stop size = .ok (.error e, m')) : m' = m := by
  unfold MemoryAllocator.freeRange at h
  split_ifs at h with h1 h2 h3
  · exact (Prod.mk.inj (Except.ok.inj h)).2.symm
  · simp only [Exec.bind_eq_ok] at h
    obtain ⟨_, -, _, -, _, -, h⟩ := h
    exact hagain _ _ h
  · simp only [Exec.bind_eq_ok] at h
    obtain ⟨_, -, _, -, h⟩ := h
    exact hagain _ _ h
  · exact freeBeside_unchanged hagain h

theorem defineFreeMemory_unchanged : ∀ {fuel start size : ℕ},
    MemoryAllocator.defineFreeMemory fuel m start size = .ok (.error e, m') → m' = m
  | 0, _, _, h => nomatch h
  | fuel + 1, start, size, h => by
    unfold MemoryAllocator.defineFreeMemory at h
    split_ifs at h with hz
    · exact (Prod.mk.inj (Except.ok.inj h)).2.symm
    · obtain ⟨_ | entry, -, h⟩ := Exec.bind_eq_ok.mp h
      · exact (Prod.mk.inj (Except.ok.inj h)).2.symm
      · obtain ⟨stop, -, h⟩ := Exec.bind_eq_ok.mp h
        exact freeRange_unchanged (fun _ _ => defineFreeMemory_unchanged) h

theorem free_unchanged (h : m.free start size = .ok (.error e, m')) : m' = m := by
  unfold MemoryAllocator.free at h
  split_ifs at h with hf
  · split at h
    · exact (Prod.mk.inj (Except.ok.inj h)).2.symm
    · simp only [Exec.bind_eq_ok] at h
      obtain ⟨_, -, _, -, _, -, h⟩ := h
      cases h
  · obtain ⟨⟨r₁, m₁⟩, h₁, h⟩ := Exec.bind_eq_ok.mp h
    cases r₁ with
    | error e₁ =>
      cases h
      exact defineFreeMemory_unchanged h₁
    | ok u =>
      obtain ⟨_, -, h⟩ := Exec.bind_eq_ok.mp h
      cases h

end

/-! ## The free lists in the middle of a call -/

/-- The entry is in use. -/
def MemoryEntryPool.InUse (p : MemoryEntryPool) (i : ℕ) : Prop :=
  i < poolSize ∧ p.enabled i = true

/-- `q` differs from `p` in the ranges and in the address chain only. -/
structure MemoryEntryPool.SameLists (p q : MemoryEntryPool) : Prop where
  listPrev : q.listPrev = p.listPrev
  listNext : q.listNext = p.listNext
  id : q.id = p.id
  enabled : q.enabled = p.enabled

namespace MemoryEntryPool.SameLists

variable {p q r : MemoryEntryPool} {x y s e : ℕ}

theorem refl (p : MemoryEntryPool) : p.SameLists p :=
  ⟨rfl, rfl, rfl, rfl⟩

theorem trans (h : p.SameLists q) (h' : q.SameLists r) : p.SameLists r :=
  ⟨h'.listPrev.trans h.listPrev, h'.listNext.trans h.listNext, h'.id.trans h.id,
    h'.enabled.trans h.enabled⟩

theorem setRange (h : p.setRange x s e = .ok q) : p.SameLists q := by
  obtain ⟨-, rfl⟩ := setRange_eq_ok h
  exact ⟨rfl, rfl, rfl, rfl⟩

theorem chainNewEntry (p : MemoryEntryPool) (x y : ℕ) :
    p.SameLists (MemoryAllocator.chainNewEntry p x y) := by
  unfold MemoryAllocator.chainNewEntry
  split <;> exact ⟨rfl, rfl, rfl, rfl⟩

theorem inUse (h : p.SameLists q) (hx : p.InUse x) : q.InUse x :=
  ⟨hx.1, by rw [h.enabled]; exact hx.2⟩

end MemoryEntryPool.SameLists

theorem MemoryEntryPool.inUse_fresh {p : MemoryEntryPool} {y : ℕ} (hy : y < poolSize) :
    (p.fresh y).InUse y :=
  ⟨hy, Function.update_self ..⟩

theorem MemoryEntryPool.InUse.fresh {p : MemoryEntryPool} {x y : ℕ} (hx : p.InUse x) (hxy : x ≠ y) :
    (p.fresh y).InUse x :=
  ⟨hx.1, (Function.update_of_ne hxy _ _).trans hx.2⟩

/-- Every entry in use is in the free list of order `key i`. -/
def Listed (m : MemoryAllocator) (key : ℕ → Option ℕ) : Prop :=
  ∃ B, FreeLists (m.pool, m.freeList) B ∧ ∀ i k, i ∈ B k ↔ m.pool.InUse i ∧ key i = some k

section

variable {m m' : MemoryAllocator} {L : List ℕ} {B : ℕ → List ℕ} {key : ℕ → Option ℕ}
  {x y start size old : ℕ}

theorem Inv.inUse_iff (h : Inv m L B) : m.pool.InUse x ↔ x ∈ L :=
  (h.shape.chain.mem_iff x).symm

theorem Inv.listed (h : Inv m L B) : Listed m (orderOf m) :=
  ⟨B, h.shape.lists, fun i k => by rw [h.shape.listed, h.inUse_iff]⟩

namespace Listed

/-- Writes to other columns of the pool. -/
theorem congr (h : Listed m key) (hs : m.pool.SameLists m'.pool) (hlist : m'.freeList = m.freeList) :
    Listed m' key := by
  obtain ⟨B, hB, hmem⟩ := h
  obtain ⟨hprev, hnext, hid, henabled⟩ := hs
  refine ⟨B, ⟨fun k => ?_, fun k => ?_, hB.nodup, hB.unique, fun hi => ?_⟩, fun i k => ?_⟩
  · exact hlist ▸ hB.head k
  · simp only [hprev, hnext]
    exact hB.linked k
  · simp only [hid]
    exact hB.valid hi
  · rw [hmem, MemoryEntryPool.InUse, MemoryEntryPool.InUse, henabled]

theorem id_eq (h : Listed m key) (hx : m.pool.InUse x) {k : ℕ} (hk : key x = some k) :
    m.pool.id x = x := by
  obtain ⟨B, hB, hmem⟩ := h
  exact (hB.valid ((hmem x k).mpr ⟨hx, hk⟩)).2

theorem rechain_finishes {old : Option ℕ} (h : Listed m key) (hx : m.pool.InUse x)
    (hold : key x = old.map sizeToPageOrder) : (m.rechain x old).Finishes := by
  obtain ⟨B, hB, hmem⟩ := h
  refine (chainEntryToFreeList_finishes hB fun j => ?_).bind fun _ _ => Exec.finishes_ok _
  rw [hmem, hold]
  exact and_iff_right hx

theorem rechain (h : Listed m key) (hx : m.pool.InUse x) (hold : key x = some (sizeToPageOrder old))
    (he : m.rechain x (some old) = .ok m') :
    SameButLists m m' ∧ Listed m' (Function.update key x (some (sizeToPageOrder (m.pool.size x)))) := by
  have hid := h.id_eq hx hold
  obtain ⟨B, hB, hmem⟩ := h
  obtain ⟨⟨pool, freeList⟩, hc, he⟩ := Exec.bind_eq_ok.mp he
  cases he
  obtain ⟨⟨lp, ln, hsame⟩, B', hB', hm⟩ := chainEntryToFreeList_spec hB ⟨hx.1, hid⟩
    (fun j => by rw [hmem, hold]; exact and_iff_right hx) hc
  dsimp only at hsame
  subst hsame
  refine ⟨⟨lp, ln, freeList, rfl⟩, B', hB', fun i k => ?_⟩
  rw [hm i k]
  split_ifs with hi
  · subst hi
    rw [Function.update_self, Option.some.injEq, eq_comm]
    exact (and_iff_right hx).symm
  · rw [hmem, Function.update_of_ne hi]
    rfl

/-- An entry gets a new list, and then a new entry its first one. -/
theorem rechain_two (h : Listed m key) (hx : m.pool.InUse x) (hy : m.pool.InUse y) (hxy : x ≠ y)
    (hkx : key x = some (sizeToPageOrder old)) (hky : key y = none) :
    (m.rechain x (some old)).Finishes ∧
      ∀ m₁, m.rechain x (some old) = .ok m₁ → (m₁.rechain y none).Finishes := by
  refine ⟨h.rechain_finishes hx hkx, fun m₁ h₁ => ?_⟩
  obtain ⟨⟨lp, ln, fl, rfl⟩, hlisted⟩ := h.rechain hx hkx h₁
  exact hlisted.rechain_finishes hy ((Function.update_of_ne (Ne.symm hxy) _ _).trans hky)

/-- A new entry is in no list yet. -/
theorem fresh (h : Listed m key) (hy : m.pool.enabled y = false) :
    Listed { m with pool := m.pool.fresh y } (Function.update key y none) := by
  obtain ⟨B, hB, hmem⟩ := h
  have hne : ∀ {i k}, i ∈ B k → i ≠ y := by
    rintro i k hi rfl
    exact absurd ((hmem i k).mp hi).1.2 (by simp [hy])
  refine ⟨B, ⟨hB.head, fun k => ?_, hB.nodup, hB.unique, fun hi => ⟨(hB.valid hi).1, ?_⟩⟩,
    fun i k => ?_⟩
  · refine (hB.linked k).congr (hB.nodup k) (fun i hi => ?_) fun i hi => ?_
    · exact Function.update_of_ne (hne hi) _ _
    · exact Function.update_of_ne (hne hi) _ _
  · exact (Function.update_of_ne (hne hi) _ _).trans (hB.valid hi).2
  · by_cases hi : i = y
    · subst hi
      exact iff_of_false (fun hc => hne hc rfl) (by simp)
    · rw [hmem, Function.update_of_ne hi, MemoryEntryPool.InUse, MemoryEntryPool.InUse]
      simp [MemoryEntryPool.fresh, Function.update_of_ne hi]

theorem deleteEntry (h : Listed m key) (hx : key x = some (sizeToPageOrder (m.pool.size x)))
    (hin : m.pool.InUse x) (he : m.deleteEntry x = .ok m') :
    Listed m' key ∧ m'.pool.enabled = Function.update m.pool.enabled x false := by
  obtain ⟨B, hB, hmem⟩ := h
  obtain ⟨⟨pool, freeList⟩, hc, he⟩ := Exec.bind_eq_ok.mp he
  cases he
  obtain ⟨⟨lp, ln, hsame⟩, B', hB', hm⟩ := unchainEntryFromFreeList_spec hB
    (fun j => by rw [hmem, hx, Option.some.injEq, eq_comm]; exact and_iff_right hin) hc
  dsimp only at hsame
  subst hsame
  obtain ⟨-, -, -, henabled⟩ :=
    MemoryEntryPool.delete_lists { m.pool with listPrev := lp, listNext := ln } x
  refine ⟨⟨B', hB'.delete x, fun i k => ?_⟩, henabled⟩
  rw [hm i k, hmem, MemoryEntryPool.InUse, MemoryEntryPool.InUse]
  simp only [henabled]
  by_cases hi : i = x
  · subst hi
    simp
  · simp [hi]

end Listed

/-! ## Every call ends -/

theorem finishes_setRange (p : MemoryEntryPool) (i s e : ℕ) : (p.setRange i s e).Finishes :=
  (finishes_assert _).bind fun _ _ => Exec.finishes_ok _

theorem finishes_getEndAddress (a s : ℕ) : (getEndAddress a s).Finishes :=
  (finishes_checkedAdd _ _ _).bind fun _ _ => finishes_checkedSub _ _

theorem finishes_useSize (m : MemoryAllocator) (size : ℕ) : (m.useSize size).Finishes :=
  (finishes_checkedSub _ _).bind fun _ _ => Exec.finishes_ok _

theorem finishes_deleteEntry (m : MemoryAllocator) (x : ℕ) : (m.deleteEntry x).Finishes :=
  Exec.Finishes.bind ((MemoryEntryPool.finishes_getSize _ _).bind fun _ _ => Exec.finishes_ok _)
    fun _ _ => Exec.finishes_ok _

namespace Listed

variable {s e : ℕ}

theorem resizeEntry_finishes (h : Listed m key) (hx : m.pool.InUse x)
    (hkey : key x = some (sizeToPageOrder (m.pool.size x))) : (m.resizeEntry x s e).Finishes := by
  refine (MemoryEntryPool.finishes_getSize _ _).bind fun size hsize =>
    (finishes_setRange _ _ _ _).bind fun pool hpool => ?_
  obtain rfl := MemoryEntryPool.getSize_eq_ok hsize
  have hs := MemoryEntryPool.SameLists.setRange hpool
  have hl : Listed { m with pool } key := h.congr hs rfl
  exact hl.rechain_finishes (hs.inUse hx) hkey

/-- The last byte of an entry : its old size is one more than the new one. -/
theorem useLastByte_finishes (h : Listed m key) (hx : m.pool.InUse x)
    (hkey : key x = some (sizeToPageOrder (m.pool.size x))) (hend : m.pool.endAddress x = start) :
    (m.useLastByte x start size).Finishes := by
  refine (finishes_checkedSub _ _).bind fun stop hstop => (finishes_setRange _ _ _ _).bind
    fun pool hpool => (MemoryEntryPool.finishes_getSize _ _).bind fun s hs =>
      (finishes_checkedAdd _ _ _).bind fun old hold =>
        Exec.Finishes.bind ?_ fun _ _ => finishes_useSize _ _
  have hsame := MemoryEntryPool.SameLists.setRange hpool
  obtain ⟨-, rfl⟩ := checkedSub_eq_ok.mp hstop
  obtain ⟨hlt, rfl⟩ := MemoryEntryPool.setRange_eq_ok hpool
  obtain rfl := MemoryEntryPool.getSize_eq_ok hs
  obtain ⟨-, rfl⟩ := checkedAdd_eq_ok.mp hold
  have hsize : m.pool.size x =
      (m.pool.withRange x (m.pool.startAddress x) (start - 1)).size x + 1 := by
    simp only [MemoryEntryPool.size, MemoryEntryPool.withRange, Function.update_self]
    omega
  have hl : Listed { m with pool := m.pool.withRange x (m.pool.startAddress x) (start - 1) } key :=
    h.congr hsame rfl
  exact hl.rechain_finishes hx (hsize ▸ hkey)

theorem splitEntry_finishes (h : Listed m key) (hx : m.pool.InUse x)
    (hkey : key x = some (sizeToPageOrder (m.pool.size x))) :
    (m.splitEntry x start size).Finishes := by
  unfold MemoryAllocator.splitEntry
  split
  · exact Exec.finishes_ok _
  · rename_i y pool hcreate
    obtain ⟨hy, hye, rfl⟩ := MemoryEntryPool.createMemoryEntry_eq_some hcreate
    have hxy : x ≠ y := by
      rintro rfl
      exact absurd hx.2 (by simp [hye])
    refine (MemoryEntryPool.finishes_getSize _ _).bind fun old hold =>
      (finishes_checkedAdd _ _ _).bind fun s _ => (finishes_setRange _ _ _ _).bind fun p₁ h₁ =>
        (finishes_checkedSub _ _).bind fun t _ => (finishes_setRange _ _ _ _).bind fun p₂ h₂ => ?_
    obtain rfl := MemoryEntryPool.getSize_eq_ok hold
    have hsize : (m.pool.fresh y).size x = m.pool.size x := by
      simp [MemoryEntryPool.size, MemoryEntryPool.fresh, Function.update_of_ne hxy]
    have hs : (m.pool.fresh y).SameLists (MemoryAllocator.chainNewEntry p₂ x y) :=
      ((MemoryEntryPool.SameLists.setRange h₁).trans (.setRange h₂)).trans (.chainNewEntry _ _ _)
    have hl : Listed { m with pool := MemoryAllocator.chainNewEntry p₂ x y }
        (Function.update key y none) := (h.fresh hye).congr hs rfl
    obtain ⟨hfirst, hsecond⟩ := hl.rechain_two (hs.inUse (hx.fresh hxy))
      (hs.inUse (MemoryEntryPool.inUse_fresh hy)) hxy
      ((Function.update_of_ne hxy _ _).trans (hsize ▸ hkey)) (Function.update_self ..)
    exact hfirst.bind fun m₁ hm₁ => (hsecond m₁ hm₁).bind fun _ _ => finishes_useSize _ _

/-- `define_used_memory` ends once it has its entry. -/
theorem useRange_finishes (h : Listed m key) (hx : m.pool.InUse x)
    (hkey : key x = some (sizeToPageOrder (m.pool.size x))) :
    (m.useRange x start size).Finishes := by
  have hresize : ∀ s e, (m.resizeEntry x s e >>= fun m => m.useSize size).Finishes := fun s e =>
    (h.resizeEntry_finishes hx hkey).bind fun _ _ => finishes_useSize _ _
  unfold MemoryAllocator.useRange
  split_ifs with h1 h2 h3
  · refine (finishes_getEndAddress _ _).bind fun stop _ => ?_
    split_ifs
    · unfold MemoryAllocator.useEntry
      split
      · exact Exec.finishes_ok _
      · exact (finishes_deleteEntry _ _).bind fun _ _ => finishes_useSize _ _
      · exact (finishes_deleteEntry _ _).bind fun _ _ => finishes_useSize _ _
    · exact (finishes_checkedAdd _ _ _).bind fun _ _ => hresize _ _
  · exact Exec.finishes_ok _
  · exact h.useLastByte_finishes hx hkey h2
  · refine (finishes_getEndAddress _ _).bind fun stop _ => ?_
    split_ifs
    · exact (finishes_checkedSub _ _).bind fun _ _ => hresize _ _
    · exact h.splitEntry_finishes hx hkey

end Listed

/-- A loop along the chain ends. -/
theorem AddressChain.loop_finishes {ρ : Type} {p : MemoryEntryPool} {first : Option ℕ}
    {f : ℕ → Exec (Iter ℕ ρ)} (h : AddressChain p first L) (hbody : ∀ i, (f i).Finishes)
    (hstep : ∀ i j, f i = .ok (.next j) → p.getNextEntry i = some j) (hx : first = some x) :
    (loop f (poolSize + 1) x).Finishes := by
  have hlen := h.length_le
  obtain ⟨C, rfl⟩ := List.head?_eq_some_iff.mp (h.head.symm.trans hx)
  rw [List.length_cons] at hlen
  refine h.linked.loop_finishes (fun i _ => hbody i) (fun i j hi hij => ?_) C [] x _ rfl (by omega)
  obtain ⟨A, D, hAD⟩ := List.append_of_mem hi
  have h' := hAD ▸ h
  rw [h'.next]
  exact h'.getNextEntry.symm.trans (hstep i j hij)

theorem finishes_containingStep (p : MemoryEntryPool) (address i : ℕ) :
    (p.containingStep address i).Finishes := by
  unfold MemoryEntryPool.containingStep
  split_ifs
  · split <;> exact Exec.finishes_ok _
  · exact Exec.finishes_ok _
  · exact Exec.finishes_ok _

theorem next_of_containingStep {p : MemoryEntryPool} {address i j : ℕ}
    (h : p.containingStep address i = .ok (.next j)) : p.getNextEntry i = some j := by
  unfold MemoryEntryPool.containingStep at h
  split_ifs at h
  · split at h
    · rename_i hnext
      cases h
      exact hnext
    · cases h
  · cases h
  · cases h

theorem finishes_previousStep (p : MemoryEntryPool) (address i : ℕ) :
    (p.previousStep address i).Finishes := by
  unfold MemoryEntryPool.previousStep
  refine Exec.finishes_ite ?_ (Exec.finishes_ok _)
  cases p.getNextEntry i with
  | none => exact Exec.finishes_ite (Exec.finishes_ok _) (Exec.finishes_ok _)
  | some j => exact Exec.finishes_ok _

theorem next_of_previousStep {p : MemoryEntryPool} {address i j : ℕ}
    (h : p.previousStep address i = .ok (.next j)) : p.getNextEntry i = some j := by
  unfold MemoryEntryPool.previousStep at h
  cases hnext : p.getNextEntry i with
  | none =>
    simp only [hnext] at h
    split_ifs at h <;> cases h
  | some c =>
    simp only [hnext] at h
    split_ifs at h
    · cases h
      rfl
    · cases h

/-- `define_used_memory` ends, whatever its range. -/
theorem Inv.defineUsedRange_finishes (h : Inv m L B) {target : Option ℕ}
    (htarget : ∀ i, target = some i → i ∈ L) :
    (m.defineUsedRange start size target).Finishes := by
  have huse : ∀ i ∈ L, (m.useRange i start size).Finishes := fun i hi =>
    h.listed.useRange_finishes (h.inUse_iff.mpr hi) rfl
  unfold MemoryAllocator.defineUsedRange
  refine Exec.finishes_ite (Exec.finishes_ok _) (Exec.finishes_ite (Exec.finishes_ok _) ?_)
  cases target with
  | some entry => exact huse entry (htarget entry rfl)
  | none =>
    refine Exec.Finishes.bind ?_ fun found hfound => ?_
    · unfold MemoryEntryPool.searchEntryContainingAddress
      have hfirst : ∀ i, m.firstEntry = some i → i < poolSize := fun i hi =>
        h.shape.chain.lt (List.mem_of_head? (h.shape.chain.head.symm.trans hi))
      rw [MemoryEntryPool.bind_getMemoryEntry hfirst]
      cases hx : m.firstEntry with
      | none => exact Exec.finishes_ok _
      | some x =>
        exact h.shape.chain.loop_finishes (finishes_containingStep _ _)
          (fun _ _ => next_of_containingStep) hx
    · cases found with
      | none => exact Exec.finishes_ok _
      | some i => exact huse i (h.shape.chain.mem_of_searchEntryContainingAddress hfound).1

theorem Inv.reserveMemory_finishes (h : Inv m L B) (o : ℕ) :
    (m.reserveMemory start size o).Finishes := by
  have hrange : ∀ s z, (m.defineUsedRange s z none).Finishes := fun s z =>
    h.defineUsedRange_finishes nofun
  unfold MemoryAllocator.reserveMemory MemoryAllocator.defineUsedMemory
  refine Exec.finishes_ite (hrange _ _) (Exec.finishes_ite (Exec.finishes_ok _)
    (Exec.finishes_ite (Exec.finishes_ok _) (Exec.Finishes.bind ?_ fun _ _ => hrange _ _)))
  refine Exec.Finishes.bind (Exec.finishes_ite (Exec.finishes_ok _) nofun) fun _ _ =>
    (finishes_checkedAdd _ _ _).bind fun _ _ => (finishes_checkedSub _ _).bind fun _ _ =>
      (finishes_checkedAdd _ _ _).bind fun _ _ => Exec.finishes_ok _

theorem finishes_addressToAllocate (p : MemoryEntryPool) (size o i : ℕ) :
    (MemoryAllocator.addressToAllocate p size o i).Finishes := by
  refine (MemoryEntryPool.finishes_getSize _ _).bind fun s _ =>
    Exec.finishes_ite (Exec.finishes_ite ?_ (Exec.finishes_ok _)) (Exec.finishes_ok _)
  refine Exec.Finishes.bind ?_ fun _ _ => Exec.finishes_ite (Exec.finishes_ok _) (Exec.finishes_ok _)
  unfold alignAddressAndAvailableSize
  refine Exec.finishes_ite (Exec.finishes_ok _) ?_
  exact Exec.Finishes.bind (Exec.finishes_ite (Exec.finishes_ok _) nofun) fun _ _ =>
    (finishes_checkedAdd _ _ _).bind fun _ _ =>
      Exec.finishes_ite (Exec.finishes_ok _) (Exec.finishes_ok _)

theorem Inv.allocateStep_finishes (h : Inv m L B) (o : ℕ) (hx : x ∈ L) :
    (m.allocateStep size o x).Finishes := by
  refine (finishes_addressToAllocate _ _ _ _).bind fun found _ => ?_
  cases found with
  | none =>
    dsimp only
    split <;> exact Exec.finishes_ok _
  | some address =>
    have hused : (m.defineUsedMemory address size 0 (some x)).Finishes := by
      rw [MemoryAllocator.defineUsedMemory, if_pos rfl]
      refine h.defineUsedRange_finishes ?_
      rintro _ ⟨⟩
      exact hx
    exact hused.bind fun _ _ => Exec.finishes_ok _

theorem next_of_allocateStep {o i j : ℕ} (h : m.allocateStep size o i = .ok (.next j)) :
    (m.pool.listNext i).bind MemoryEntryPool.getMemoryEntry = some j := by
  obtain ⟨_ | address, -, h⟩ := Exec.bind_eq_ok.mp h
  · dsimp only at h
    split at h
    · rename_i hnext
      cases h
      exact hnext
    · cases h
  · obtain ⟨_, -, h⟩ := Exec.bind_eq_ok.mp h
    cases h

theorem Inv.allocate_finishes (h : Inv m L B) (o : ℕ) : (m.allocate size o).Finishes := by
  have hfrom : ∀ n k, (m.allocateFrom size o n k).Finishes := by
    intro n
    induction n with
    | zero => exact fun k => Exec.finishes_ok _
    | succ n ih =>
      intro k
      unfold MemoryAllocator.allocateFrom
      cases hk : m.freeList k with
      | none => exact ih (k + 1)
      | some t =>
        dsimp only
        split
        · exact Exec.finishes_ok _
        · rename_i first hfirst
          have hmem : ∀ i ∈ B k, i ∈ L := fun i hi => ((h.shape.listed i k).mp hi).1
          have ht : first = t := by
            unfold MemoryEntryPool.getMemoryEntry at hfirst
            split_ifs at hfirst
            exact (Option.some.inj hfirst).symm
          subst ht
          refine Exec.Finishes.bind (h.shape.lists.loop_finishes
            (fun i hi => h.allocateStep_finishes o (hmem i hi)) (fun _ _ => next_of_allocateStep) hk)
            fun r _ => ?_
          cases r with
          | none => exact ih (k + 1)
          | some q => exact Exec.finishes_ok _
  unfold MemoryAllocator.allocate
  exact Exec.finishes_ite (Exec.finishes_ok _) (Exec.finishes_ite (Exec.finishes_ok _) (hfrom _ _))

theorem finishes_linkNewEntry (m : MemoryAllocator) (x y : ℕ) (next : Option ℕ) :
    (m.linkNewEntry x y next).Finishes := by
  have hbefore : ∀ limit, (m.linkBefore x y limit).Finishes := by
    intro limit
    unfold MemoryAllocator.linkBefore
    split
    · exact (finishes_assert _).bind fun _ _ => Exec.finishes_ok _
    · exact Exec.finishes_ok _
  cases next with
  | none => exact Exec.finishes_ite (Exec.finishes_ok _) (hbefore _)
  | some c => exact Exec.finishes_ite (hbefore _) (Exec.finishes_ok _)

/-- Linking a new entry does not touch the free lists. -/
theorem linkNewEntry_sameLists {next : Option ℕ} (h : m.linkNewEntry x y next = .ok m') :
    m.pool.SameLists m'.pool ∧ m'.freeList = m.freeList := by
  have hbefore : ∀ {limit}, m.linkBefore x y limit = .ok m' →
      m.pool.SameLists m'.pool ∧ m'.freeList = m.freeList := by
    intro limit h
    unfold MemoryAllocator.linkBefore at h
    split at h
    · obtain ⟨_, h⟩ := assert_bind_eq_ok.mp h
      cases h
      exact ⟨⟨rfl, rfl, rfl, rfl⟩, rfl⟩
    · cases h
      exact ⟨⟨rfl, rfl, rfl, rfl⟩, rfl⟩
  cases next with
  | none =>
    simp only [MemoryAllocator.linkNewEntry] at h
    split_ifs at h
    · cases h
      exact ⟨⟨rfl, rfl, rfl, rfl⟩, rfl⟩
    · exact hbefore h
  | some c =>
    simp only [MemoryAllocator.linkNewEntry] at h
    split_ifs at h
    · exact hbefore h
    · cases h
      exact ⟨⟨rfl, rfl, rfl, rfl⟩, rfl⟩

namespace Listed

variable {stop : ℕ} {next : Option ℕ} {processed : Bool}
  {again : MemoryAllocator → ℕ → ℕ → Exec (MemoryResult Unit × MemoryAllocator)}

theorem insertEntry_finishes (h : Listed m key) (hx : m.pool.InUse x)
    (hkey : key x = some (sizeToPageOrder old)) :
    (m.insertEntry x old start stop size next).Finishes := by
  unfold MemoryAllocator.insertEntry
  split
  · exact Exec.finishes_ok _
  · rename_i y pool hcreate
    obtain ⟨hy, hye, rfl⟩ := MemoryEntryPool.createMemoryEntry_eq_some hcreate
    have hxy : x ≠ y := by
      rintro rfl
      exact absurd hx.2 (by simp [hye])
    refine (finishes_setRange _ _ _ _).bind fun pool hpool => (finishes_linkNewEntry _ _ _ _).bind
      fun m₁ h₁ => (finishes_checkedAdd _ _ _).bind fun freeSize _ => ?_
    obtain ⟨hlink, hlist⟩ := linkNewEntry_sameLists h₁
    have hs : (m.pool.fresh y).SameLists m₁.pool := (MemoryEntryPool.SameLists.setRange hpool).trans hlink
    have hl : Listed { m₁ with freeSize } (Function.update key y none) := (h.fresh hye).congr hs hlist
    obtain ⟨hfirst, hsecond⟩ := hl.rechain_two (hs.inUse (hx.fresh hxy))
      (hs.inUse (MemoryEntryPool.inUse_fresh hy)) hxy ((Function.update_of_ne hxy _ _).trans hkey)
      (Function.update_self ..)
    exact hfirst.bind fun m₂ hm₂ => (hsecond m₂ hm₂).bind fun _ _ => Exec.finishes_ok _

theorem finishExtended_finishes (h : Listed m key) (hx : m.pool.InUse x)
    (hkey : key x = some (sizeToPageOrder old)) : (m.finishExtended x old size).Finishes :=
  (finishes_checkedAdd _ _ _).bind fun _ _ =>
    Exec.Finishes.bind (rechain_finishes (h.congr (.refl _) rfl) hx hkey) fun _ _ => Exec.finishes_ok _

/-- An entry with a new range is in the list of its new size. -/
theorem resizeEntry {c s e : ℕ} (h : Listed m key) (hc : m.pool.InUse c)
    (hkey : key c = some (sizeToPageOrder (m.pool.size c))) (he : m.resizeEntry c s e = .ok m') :
    Listed m' (Function.update key c (some (sizeToPageOrder (m'.pool.size c)))) ∧
      m'.pool.enabled = m.pool.enabled := by
  obtain ⟨size, hsize, he⟩ := Exec.bind_eq_ok.mp he
  obtain ⟨pool, hpool, he⟩ := Exec.bind_eq_ok.mp he
  obtain rfl := MemoryEntryPool.getSize_eq_ok hsize
  have hs := MemoryEntryPool.SameLists.setRange hpool
  have hl : Listed { m with pool } key := h.congr hs rfl
  obtain ⟨⟨lp, ln, fl, rfl⟩, hlisted⟩ := hl.rechain (hs.inUse hc) hkey he
  exact ⟨hlisted, hs.enabled⟩

theorem extendNext_finishes {c : ℕ} (h : Listed m key) (hc : m.pool.InUse c)
    (hkey : key c = some (sizeToPageOrder (m.pool.size c))) :
    (m.extendNext c start stop processed).Finishes :=
  (finishes_checkedAdd _ _ _).bind fun _ _ => Exec.finishes_ite
    ((h.resizeEntry_finishes hc hkey).bind fun _ _ => Exec.finishes_ok _) (Exec.finishes_ok _)

theorem extendNext {c : ℕ} {b : Bool} (h : Listed m key) (hcx : c ≠ x) (hc : m.pool.InUse c)
    (hkey : key c = some (sizeToPageOrder (m.pool.size c)))
    (he : m.extendNext c start stop processed = .ok (m', b)) :
    ∃ key', Listed m' key' ∧ m'.pool.enabled = m.pool.enabled ∧ key' x = key x ∧
      key' c = some (sizeToPageOrder (m'.pool.size c)) := by
  obtain ⟨_, -, he⟩ := Exec.bind_eq_ok.mp he
  split_ifs at he
  · obtain ⟨m₁, h₁, he⟩ := Exec.bind_eq_ok.mp he
    cases he
    obtain ⟨hl, henabled⟩ := h.resizeEntry hc hkey h₁
    exact ⟨_, hl, henabled, Function.update_of_ne (Ne.symm hcx) _ _, Function.update_self ..⟩
  · cases he
    exact ⟨key, h, rfl, rfl, hkey⟩

theorem finishes_mergeNext (m : MemoryAllocator) (x c after : ℕ) (processed : Bool) :
    (m.mergeNext x c after processed).Finishes :=
  (finishes_checkedAdd _ _ _).bind fun _ _ => Exec.finishes_ite
    ((finishes_setRange _ _ _ _).bind fun _ _ => finishes_deleteEntry _ _) (Exec.finishes_ok _)

theorem mergeNext {c after : ℕ} (h : Listed m key) (hcx : c ≠ x) (hx : m.pool.InUse x)
    (hc : m.pool.InUse c) (hkey : key c = some (sizeToPageOrder (m.pool.size c)))
    (he : m.mergeNext x c after processed = .ok m') : Listed m' key ∧ m'.pool.InUse x := by
  obtain ⟨_, -, he⟩ := Exec.bind_eq_ok.mp he
  split_ifs at he
  · obtain ⟨pool, hpool, he⟩ := Exec.bind_eq_ok.mp he
    have hs := MemoryEntryPool.SameLists.setRange hpool
    have hl : Listed { m with pool } key := h.congr hs rfl
    have hsize : pool.size c = m.pool.size c := by
      obtain ⟨-, rfl⟩ := MemoryEntryPool.setRange_eq_ok hpool
      simp [MemoryEntryPool.size, MemoryEntryPool.withRange, Function.update_of_ne hcx]
    obtain ⟨hl', henabled⟩ := hl.deleteEntry (hsize ▸ hkey) (hs.inUse hc) he
    refine ⟨hl', hx.1, ?_⟩
    rw [henabled, Function.update_of_ne (Ne.symm hcx)]
    exact (hs.inUse hx).2
  · cases he
    exact ⟨h, hx⟩

/-- From where `define_free_memory` looks at the next entry. -/
theorem freeWithNext_finishes {after : ℕ} (h : Listed m key) (hx : m.pool.InUse x)
    (hkey : key x = some (sizeToPageOrder old))
    (hnext : ∀ c, next = some c → c ≠ x ∧ m.pool.InUse c ∧
      key c = some (sizeToPageOrder (m.pool.size c)))
    (hagain : ∀ c, next = some c → m.pool.startAddress c ≤ start → m.pool.endAddress c < stop →
      processed = false → (again m (m.pool.endAddress c + 1) (stop - m.pool.endAddress c)).Finishes) :
    (m.freeWithNext again x after old start stop size processed next).Finishes := by
  cases next with
  | none => exact Exec.finishes_ite (h.finishExtended_finishes hx hkey) (h.insertEntry_finishes hx hkey)
  | some c =>
    obtain ⟨hcx, hc, hkc⟩ := hnext c rfl
    unfold MemoryAllocator.freeWithNext
    dsimp only
    by_cases hs : m.pool.startAddress c ≤ start
    · rw [if_pos hs]
      refine (finishes_assert _).bind fun _ hp => ?_
      by_cases hend : stop ≤ m.pool.endAddress c
      · rw [if_pos hend]
        exact Exec.finishes_ok _
      · rw [if_neg hend]
        refine (finishes_checkedAdd _ _ _).bind fun s hs' => (finishes_checkedSub _ _).bind
          fun z hz => ?_
        obtain ⟨-, rfl⟩ := checkedAdd_eq_ok.mp hs'
        obtain ⟨-, rfl⟩ := checkedSub_eq_ok.mp hz
        exact hagain c rfl hs (not_le.mp hend) (assert_eq_ok.mp hp)
    · rw [if_neg hs]
      refine (h.extendNext_finishes hc hkc).bind ?_
      rintro ⟨m₁, b⟩ h₁
      obtain ⟨key₁, hl₁, henabled, hkx₁, hkc₁⟩ := h.extendNext (x := x) hcx hc hkc h₁
      have hin : ∀ {i}, m.pool.InUse i → m₁.pool.InUse i := fun hi => ⟨hi.1, henabled ▸ hi.2⟩
      refine (finishes_mergeNext _ _ _ _ _).bind fun m₂ h₂ => ?_
      obtain ⟨hl₂, hx₂⟩ := hl₁.mergeNext hcx (hin hx) (hin hc) hkc₁ h₂
      have hkx₂ : key₁ x = some (sizeToPageOrder old) := hkx₁.trans hkey
      exact Exec.finishes_ite (hl₂.finishExtended_finishes hx₂ hkx₂) (hl₂.insertEntry_finishes hx₂ hkx₂)

end Listed

variable {A C : List ℕ} {stop : ℕ}
  {again : MemoryAllocator → ℕ → ℕ → Exec (MemoryResult Unit × MemoryAllocator)}

theorem finishes_extendEnd (p : MemoryEntryPool) (x after start stop : ℕ) :
    (MemoryAllocator.extendEnd p x after start stop).Finishes :=
  Exec.finishes_ite ((finishes_setRange _ _ _ _).bind fun _ _ => Exec.finishes_ok _)
    (Exec.finishes_ok _)

theorem finishes_extendStart (p : MemoryEntryPool) (x start stop : ℕ) (processed : Bool) :
    (MemoryAllocator.extendStart p x start stop processed).Finishes :=
  Exec.finishes_ite ((finishes_checkedAdd _ _ _).bind fun _ _ => Exec.finishes_ite
    ((finishes_setRange _ _ _ _).bind fun _ _ => Exec.finishes_ok _) (Exec.finishes_ok _))
    (Exec.finishes_ok _)

/-- Only the entry itself has grown. -/
theorem extended {p p₁ p₂ : MemoryEntryPool} {after : ℕ} {b b' : Bool}
    (h₁ : MemoryAllocator.extendEnd p x after start stop = .ok (p₁, b))
    (h₂ : MemoryAllocator.extendStart p₁ x start stop b = .ok (p₂, b')) :
    p.SameLists p₂ ∧ p₂.next = p.next ∧ ∀ c, c ≠ x → p₂.range c = p.range c := by
  have hset : ∀ {q r : MemoryEntryPool} {s e : ℕ}, q.setRange x s e = .ok r →
      q.SameLists r ∧ r.next = q.next ∧ ∀ c, c ≠ x → r.range c = q.range c := by
    intro q r s e h
    have hs := MemoryEntryPool.SameLists.setRange h
    obtain ⟨-, rfl⟩ := MemoryEntryPool.setRange_eq_ok h
    exact ⟨hs, rfl, fun c hc => range_withRange_of_ne hc⟩
  have hstart : p₁.SameLists p₂ ∧ p₂.next = p₁.next ∧ ∀ c, c ≠ x → p₂.range c = p₁.range c := by
    unfold MemoryAllocator.extendStart at h₂
    split_ifs at h₂
    · obtain ⟨_, -, h₂⟩ := Exec.bind_eq_ok.mp h₂
      split_ifs at h₂
      · obtain ⟨q, hq, h₂⟩ := Exec.bind_eq_ok.mp h₂
        cases h₂
        exact hset hq
      · cases h₂
        exact ⟨.refl _, rfl, fun _ _ => rfl⟩
    · cases h₂
      exact ⟨.refl _, rfl, fun _ _ => rfl⟩
  unfold MemoryAllocator.extendEnd at h₁
  split_ifs at h₁
  · obtain ⟨q, hq, h₁⟩ := Exec.bind_eq_ok.mp h₁
    cases h₁
    obtain ⟨hs, hn, hr⟩ := hset hq
    exact ⟨hs.trans hstart.1, hstart.2.1.trans hn, fun c hc => (hstart.2.2 c hc).trans (hr c hc)⟩
  · cases h₁
    exact hstart

theorem Inv.freeBeside_finishes (h : Inv m (A ++ x :: C) B)
    (hagain : ∀ c, C.head? = some c → m.pool.startAddress c ≤ start → m.pool.endAddress c < stop →
      (again m (m.pool.endAddress c + 1) (stop - m.pool.endAddress c)).Finishes) :
    (m.freeBeside again x start stop size).Finishes := by
  refine (MemoryEntryPool.finishes_getSize _ _).bind fun old hold =>
    (finishes_checkedAdd _ _ _).bind fun after _ => (finishes_extendEnd _ _ _ _ _).bind ?_
  rintro ⟨p₁, b₁⟩ h₁
  refine (finishes_extendStart _ _ _ _ _).bind ?_
  rintro ⟨p₂, b₂⟩ h₂
  obtain rfl := MemoryEntryPool.getSize_eq_ok hold
  obtain ⟨hs, hn, hrange⟩ := extended h₁ h₂
  have hl : Listed { m with pool := p₂ } (orderOf m) := h.listed.congr hs rfl
  have hin : ∀ i ∈ A ++ x :: C, p₂.InUse i := fun i hi => hs.inUse (h.inUse_iff.mpr hi)
  have hnext : p₂.getNextEntry x = C.head? := by
    rw [MemoryEntryPool.getNextEntry, hn]
    exact h.shape.chain.getNextEntry
  have hmem : ∀ c, C.head? = some c → c ∈ A ++ x :: C ∧ c ≠ x := by
    intro c hc
    have hcC := List.mem_of_head? hc
    refine ⟨by simp [hcC], fun hcx => ?_⟩
    exact (List.nodup_cons.mp (List.nodup_append.mp h.shape.chain.nodup).2.1).1 (hcx ▸ hcC)
  dsimp only
  rw [hnext]
  refine hl.freeWithNext_finishes (hin x (by simp)) rfl (fun c hc => ?_) fun c hc hstart hend hb => ?_
  · obtain ⟨hcL, hcx⟩ := hmem c hc
    have hsame : orderOf { m with pool := p₂ } c = orderOf m c := orderOf_eq (hrange c hcx)
    exact ⟨hcx, hin c hcL, hsame.symm⟩
  · have hb : b₂ = false := hb
    subst hb
    obtain ⟨rfl, rfl⟩ := extendStart_unchanged h₂
    obtain rfl := extendEnd_unchanged h₁
    exact hagain c hc hstart hend

/-- The entry starts before the address, or there is none; the next one does not end before the address. -/
def MemoryAllocator.Precedes (m : MemoryAllocator) (L : List ℕ) (address : ℕ) : Option ℕ → Prop
  | some x => ∃ A C, L = A ++ x :: C ∧ m.pool.startAddress x < address ∧
      ∀ c, C.head? = some c → address ≤ m.pool.endAddress c
  | none => ∀ c, L.tail.head? = some c → address ≤ m.pool.endAddress c

/-- The entry before one that does not end before the address. -/
theorem Inv.precedes_getLast? (h : Inv m (A ++ x :: C) B)
    (hA : ∀ a ∈ A, m.pool.startAddress a < start) (hx : start ≤ m.pool.endAddress x) :
    m.Precedes (A ++ x :: C) start A.getLast? := by
  cases hlast : A.getLast? with
  | some a =>
    obtain ⟨A, rfl⟩ := List.getLast?_eq_some_iff.mp hlast
    refine ⟨A, x :: C, by simp, hA a (by simp), ?_⟩
    rintro c ⟨⟩
    exact hx
  | none =>
    obtain rfl := List.getLast?_eq_none_iff.mp hlast
    intro c hc
    have hcC : c ∈ C := List.mem_of_head? hc
    have hsep := separated_cons.mp h.separated
    have hgap := hsep.2.2 _ (List.mem_map_of_mem hcC)
    have hle := hsep.2.1.1 _ (List.mem_map_of_mem hcC)
    simp only [MemoryEntryPool.range] at hgap hle
    omega

/-- What `search_entry_previous_address_mut` returns. -/
theorem Inv.previousStep_loop (h : Inv m (y :: C) B) {r : Option ℕ}
    (hr : loop (m.pool.previousStep start) (poolSize + 1) y = .ok r) :
    m.Precedes (y :: C) start r := by
  refine loop_ok (I := fun i => ∃ A D, y :: C = A ++ i :: D ∧ ∀ a ∈ A, m.pool.startAddress a < start)
    (C := fun _ => True) ?_ ?_ _ y ⟨[], C, rfl, by simp⟩ (throughout_true ..) hr
  · rintro i j ⟨A, D, hAD, hA⟩ - hstep
    have hinv : Inv m (A ++ i :: D) B := hAD ▸ h
    have hnext := next_of_previousStep hstep
    rw [hinv.shape.chain.getNextEntry] at hnext
    obtain ⟨D, rfl⟩ := List.head?_eq_some_iff.mp hnext
    refine ⟨A ++ [i], D, by simp [hAD], fun a ha => ?_⟩
    rcases List.mem_append.mp ha with ha | ha
    · exact hA a ha
    · rw [List.mem_singleton.mp ha]
      by_contra hlt
      rw [MemoryEntryPool.previousStep, if_neg hlt] at hstep
      cases hstep
  · rintro i r ⟨A, D, hAD, hA⟩ - hstep
    have hinv : Inv m (A ++ i :: D) B := hAD ▸ h
    have hle := hinv.separated.1 (m.pool.range i) (by simp)
    unfold MemoryEntryPool.previousStep at hstep
    rw [hinv.shape.chain.getNextEntry, hinv.shape.chain.getPrevEntry] at hstep
    rw [hAD]
    by_cases hlt : m.pool.startAddress i < start
    · rw [if_pos hlt] at hstep
      cases D with
      | cons c D => cases hstep
      | nil =>
        dsimp only [List.head?_nil] at hstep
        split_ifs at hstep with hend
        · cases hstep
          exact ⟨A, [], rfl, hlt, fun c hc => by cases hc⟩
        · cases hstep
          exact hinv.precedes_getLast? hA (by omega)
    · rw [if_neg hlt] at hstep
      cases hstep
      exact hinv.precedes_getLast? hA ((not_lt.mp hlt).trans hle)

/-- The entry that `define_free_memory` works on. -/
theorem Inv.entryBefore (h : Inv m L B) (hL : L ≠ []) (start : ℕ) : (m.entryBefore start).Finishes ∧
    ∀ x, m.entryBefore start = .ok (.ok x) → ∃ A C, L = A ++ x :: C ∧
      (A = [] ∨ m.pool.startAddress x < start) ∧
        ∀ c, C.head? = some c → start ≤ m.pool.endAddress c := by
  obtain ⟨y, C, rfl⟩ := List.exists_cons_of_ne_nil hL
  have hchain := h.shape.chain
  have hfirst : m.firstEntry = some y := hchain.head
  have hget : MemoryEntryPool.getMemoryEntry y = some y :=
    MemoryEntryPool.getMemoryEntry_of_lt (hchain.lt (by simp))
  have hsearch : m.pool.searchEntryPreviousAddress m.firstEntry start =
      loop (m.pool.previousStep start) (poolSize + 1) y := by
    simp only [MemoryEntryPool.searchEntryPreviousAddress, hfirst, Option.bind_some, hget]
  have hloop := hchain.loop_finishes (finishes_previousStep m.pool start)
    (fun _ _ => next_of_previousStep) hfirst
  unfold MemoryAllocator.entryBefore
  rw [hsearch]
  cases hr : loop (m.pool.previousStep start) (poolSize + 1) y with
  | error t =>
    rw [hr] at hloop
    exact ⟨fun hc => hloop (congrArg Except.error (Except.error.inj hc)), nofun⟩
  | ok r =>
    have hspec := h.previousStep_loop hr
    cases r with
    | some x =>
      refine ⟨Exec.finishes_ok _, ?_⟩
      rintro _ ⟨⟩
      obtain ⟨A, D, hAD, hlt, hD⟩ := hspec
      exact ⟨A, D, hAD, .inr hlt, hD⟩
    | none =>
      simp only [Exec.ok_bind, hfirst, hget]
      refine ⟨Exec.finishes_ok _, ?_⟩
      rintro _ ⟨⟩
      exact ⟨[], C, rfl, .inl rfl, hspec⟩

/-- How many entries do not end before the address. -/
def MemoryAllocator.remaining (m : MemoryAllocator) (L : List ℕ) (address : ℕ) : ℕ :=
  (L.toFinset.filter fun i => address ≤ m.pool.endAddress i).card

/-- Behind the end of an entry there are fewer. -/
theorem remaining_lt (hx : x ∈ L) (hle : start ≤ m.pool.endAddress x) :
    m.remaining L (m.pool.endAddress x + 1) < m.remaining L start := by
  refine Finset.card_lt_card (Finset.ssubset_iff_of_subset (fun i hi => ?_) |>.mpr ⟨x, ?_, ?_⟩)
  · simp only [Finset.mem_filter] at hi ⊢
    exact ⟨hi.1, by omega⟩
  · simp [hx, hle]
  · simp

theorem Inv.remaining_le (h : Inv m L B) (start : ℕ) : m.remaining L start ≤ poolSize :=
  ((Finset.card_filter_le _ _).trans (List.toFinset_card_le L)).trans h.shape.chain.length_le

/-- A range before the first entry is freed with no further call. -/
theorem Inv.defineFreeMemory_before (h : Inv m (x :: C) B) (hs : start + size ≤ m.pool.startAddress x)
    (fuel : ℕ) : (MemoryAllocator.defineFreeMemory (fuel + 1) m start size).Finishes := by
  by_cases hz : size = 0
  · rw [MemoryAllocator.defineFreeMemory, if_pos hz]
    exact Exec.finishes_ok _
  have hle : ∀ i ∈ x :: C, m.pool.startAddress x ≤ m.pool.startAddress i := by
    intro i hi
    have hsep := separated_cons.mp h.separated
    rcases List.mem_cons.mp hi with rfl | hi
    · exact le_rfl
    · have hgap := hsep.2.2 _ (List.mem_map_of_mem hi)
      have hle := hsep.1
      simp only [MemoryEntryPool.range] at hgap hle
      omega
  obtain ⟨A, y, D, heq, hrun, hside⟩ := h.defineFreeMemory_eq (List.cons_ne_nil _ _) hz
    (fun b (hb : b ∈ Set.Ico start (start + size)) hc => by
      obtain ⟨r, hr, hbr, -⟩ := hc
      obtain ⟨i, hi, rfl⟩ := List.mem_map.mp hr
      have hb := (Set.mem_Ico.mp hb).2
      have hi := hle i hi
      simp only [MemoryEntryPool.range] at hbr
      omega) fuel
  rw [hrun]
  refine (finishes_getEndAddress _ _).bind fun stop _ => ?_
  have hinv : Inv m (A ++ y :: D) B := heq ▸ h
  refine hinv.freeBeside_finishes fun c hc hstart _ => ?_
  have hc := hle c (heq ▸ by simp [List.mem_of_head? hc])
  omega

/-- `define_free_memory` makes at most as many calls as there are entries behind the start of its
range, and one for a range that ends with the first entry. -/
theorem Inv.defineFreeMemory_finishes (h : Inv m L B) (hL : L ≠ []) :
    ∀ {fuel start size : ℕ}, m.remaining L start + 1 < fuel →
      (MemoryAllocator.defineFreeMemory fuel m start size).Finishes
  | 0, _, _, hfuel => by omega
  | fuel + 1, start, size, hfuel => by
    unfold MemoryAllocator.defineFreeMemory
    by_cases hz : size = 0
    · rw [if_pos hz]
      exact Exec.finishes_ok _
    rw [if_neg hz]
    obtain ⟨hfin, hspec⟩ := h.entryBefore hL start
    refine hfin.bind fun r hr => ?_
    cases r with
    | error e => exact Exec.finishes_ok _
    | ok x =>
      obtain ⟨A, C, hAC, -, hC⟩ := hspec x hr
      have hinv : Inv m (A ++ x :: C) B := hAC ▸ h
      refine (finishes_getEndAddress _ _).bind fun stop hstop => ?_
      obtain ⟨_, hsum, hstop⟩ := Exec.bind_eq_ok.mp hstop
      obtain ⟨-, rfl⟩ := checkedAdd_eq_ok.mp hsum
      obtain ⟨-, rfl⟩ := checkedSub_eq_ok.mp hstop
      have hbehind : ∀ i ∈ L, ∀ size, start ≤ m.pool.endAddress i →
          (MemoryAllocator.defineFreeMemory fuel m (m.pool.endAddress i + 1) size).Finishes := by
        intro i hi size hle
        have := remaining_lt hi hle
        exact h.defineFreeMemory_finishes hL (by omega)
      unfold MemoryAllocator.freeRange
      split_ifs with h1 h2 h3
      · exact Exec.finishes_ok _
      · refine (finishes_checkedAdd _ _ _).bind fun s hs => (finishes_checkedSub _ _).bind fun z _ =>
          (finishes_checkedAdd _ _ _).bind fun z _ => ?_
        obtain ⟨-, rfl⟩ := checkedAdd_eq_ok.mp hs
        exact hbehind x (by simp [hAC]) _ h2.1
      · -- The range ends with the first entry. What is left of it ends before that one.
        have hprev : m.pool.previous x = none := by
          by_contra hne
          exact h2 ⟨by omega, hne⟩
        obtain rfl : A = [] := List.getLast?_eq_none_iff.mp (hinv.shape.chain.previous.symm.trans hprev)
        refine (MemoryEntryPool.finishes_getSize _ _).bind fun s hs => (finishes_checkedSub _ _).bind
          fun z hz => ?_
        obtain rfl := MemoryEntryPool.getSize_eq_ok hs
        obtain ⟨hle, rfl⟩ := checkedSub_eq_ok.mp hz
        obtain ⟨fuel, rfl⟩ : ∃ n, fuel = n + 1 := ⟨fuel - 1, by omega⟩
        refine hinv.defineFreeMemory_before ?_ fuel
        simp only [MemoryEntryPool.size] at hle ⊢
        omega
      · exact hinv.freeBeside_finishes fun c hc _ _ =>
          hbehind c (by simp [hAC, List.mem_of_head? hc]) _ (hC c hc)

theorem Inv.free_finishes (h : Inv m L B) : (m.free start size).Finishes := by
  unfold MemoryAllocator.free
  by_cases hf : m.freeSize = 0
  · rw [if_pos hf]
    split
    · exact Exec.finishes_ok _
    · rename_i y pool hcreate
      obtain ⟨hy, hye, rfl⟩ := MemoryEntryPool.createMemoryEntry_eq_some hcreate
      refine (finishes_getEndAddress _ _).bind fun stop _ => (finishes_setRange _ _ _ _).bind
        fun pool hpool => ?_
      have hs := MemoryEntryPool.SameLists.setRange hpool
      have hl : Listed { m with pool } (Function.update (orderOf m) y none) :=
        (h.listed.fresh hye).congr hs rfl
      exact (hl.rechain_finishes (hs.inUse (MemoryEntryPool.inUse_fresh hy))
        (Function.update_self ..)).bind fun _ _ => Exec.finishes_ok _
  · rw [if_neg hf]
    have hle := h.remaining_le start
    have hfuel : m.remaining L start + 1 < 4 * poolSize := by
      simp only [poolSize] at hle ⊢
      omega
    refine (h.defineFreeMemory_finishes (fun hL => hf (h.unused hL)) hfuel).bind ?_
    rintro ⟨_ | _, m₁⟩ -
    · exact Exec.finishes_ok _
    · exact (finishes_checkedAdd _ _ _).bind fun _ _ => Exec.finishes_ok _

/-! ## The result -/

/-- After any legal calls, any further call ends, and a call that returns an error has changed nothing. -/
theorem CallRun.error_unchanged (h : CallRun m) :
    (∀ size o, (m.allocate size o).Finishes ∧
      ∀ e m', m.allocate size o = .ok (.error e, m') → m' = m) ∧
    (∀ start size o, (m.reserveMemory start size o).Finishes ∧
      ∀ e m', m.reserveMemory start size o = .ok (.error e, m') → m' = m) ∧
    (∀ start size, (m.free start size).Finishes ∧
      ∀ e m', m.free start size = .ok (.error e, m') → m' = m) := by
  obtain ⟨⟨L, B, hinv⟩, -⟩ := h.valid
  refine ⟨fun size o => ⟨hinv.allocate_finishes o, fun e m' he => ?_⟩,
    fun start size o => ⟨hinv.reserveMemory_finishes o, fun e m' he => defineUsedMemory_unchanged he⟩,
    fun start size => ⟨hinv.free_finishes, fun e m' he => free_unchanged he⟩⟩
  unfold MemoryAllocator.allocate at he
  split_ifs at he
  · exact (Prod.mk.inj (Except.ok.inj he)).2.symm
  · exact (Prod.mk.inj (Except.ok.inj he)).2.symm
  · exact allocateFrom_unchanged he

/-- The last entry cannot be reserved, and a range that is free already cannot be freed. -/
theorem CallRun.error_unchanged_last : ∃ m m₁ m₂, CallRun m ∧
    (m.reserveMemory 0x1000 0x3000 0 = .ok (.error .noEntry, m₁) ∧ m₁ = m) ∧
    (m.free 0x2000 0x1000 = .ok (.error .invalidRequest, m₂) ∧ m₂ = m) := by
  have h := CallRun.free (m := .new) 0x1000 0x3000 .new
    (by simp [Inv.new.freeBytes_eq, covered]) rfl
  obtain ⟨-, hreserve, hfree⟩ := h.error_unchanged
  exact ⟨_, _, _, h, ⟨rfl, (hreserve 0x1000 0x3000 0).2 _ _ rfl⟩,
    ⟨rfl, (hfree 0x2000 0x1000).2 _ _ rfl⟩⟩

end

end MiniVisor
