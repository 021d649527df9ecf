import MiniVisor.AllocatorRefinement

/-!
# What stops the allocator

The lemmas of `AllocatorInvariant` speak about calls that return. Here is when they do. Under the
invariant no overflow check and no assertion about the links can fail, and the loops over the
free lists end. What is left is `set_range`, which refuses a range of one byte : using a range
traps exactly when it would leave one byte of its entry (`Inv.useRange_returns`), and freeing one
traps when the range is a new entry of one byte (`Inv.free_returns`).
-/

namespace MiniVisor

open Machine

namespace MemoryAllocator

/-- Every entry of the pool is in use. -/
def Full (m : MemoryAllocator) : Prop :=
  ∀ i < poolSize, m.pool.enabled i = true

instance (m : MemoryAllocator) : Decidable m.Full :=
  inferInstanceAs (Decidable (∀ i < poolSize, m.pool.enabled i = true))

/-- A free byte is next to the range. -/
def Touches (m : MemoryAllocator) (start size : ℕ) : Prop :=
  (∃ b ∈ m.freeBytes, b + 1 = start) ∨ start + size ∈ m.freeBytes

theorem createMemoryEntry_eq_none {m : MemoryAllocator} :
    m.pool.createMemoryEntry = none ↔ m.Full := by
  simp only [MemoryEntryPool.createMemoryEntry, Option.map_eq_none_iff, List.find?_eq_none,
    List.mem_range, Full]
  simp

/-- The pool has an entry that is not in use. -/
theorem createMemoryEntry_of_not_full {m : MemoryAllocator} (h : ¬m.Full) :
    ∃ y, m.pool.createMemoryEntry = some (y, m.pool.fresh y) ∧ y < poolSize ∧
      m.pool.enabled y = false := by
  cases hc : m.pool.createMemoryEntry with
  | none => exact absurd (createMemoryEntry_eq_none.mp hc) h
  | some new =>
    obtain ⟨y, q⟩ := new
    obtain ⟨hy, hye, rfl⟩ := MemoryEntryPool.createMemoryEntry_eq_some hc
    exact ⟨y, rfl, hy, hye⟩

theorem freeSize_of_rechain {m m' : MemoryAllocator} {x : ℕ} {old : Option ℕ}
    (h : m.rechain x old = .ok m') : m'.freeSize = m.freeSize := by
  obtain ⟨pl, -, h⟩ := Exec.bind_eq_ok.mp h
  cases h
  rfl

end MemoryAllocator

/-! ## Chaining -/

section

variable {m m' m₁ : MemoryAllocator} {A C L : List ℕ} {B : ℕ → List ℕ} {key : ℕ → Option ℕ}
  {x y start size s e : ℕ}

theorem MemoryEntryPool.Sized.withRange {p : MemoryEntryPool} {i : ℕ} (h : i ≠ x → p.Sized i)
    (hse : s ≤ e) (he : e - s + 1 < 2 ^ 64) : (p.withRange x s e).Sized i := by
  by_cases hi : i = x
  · subst hi
    simpa [Sized, size, MemoryEntryPool.withRange] using ⟨hse, he⟩
  · simpa [Sized, size, MemoryEntryPool.withRange, Function.update_of_ne hi] using h hi

/-- `chain_entry_to_free_list` on an entry of the chain returns. -/
theorem Shape.rechain_returns (h : Shape m L B key) (old : Option ℕ) (hx : x ∈ L)
    (hold : key x = old.map sizeToPageOrder) (hsz : ∀ i ∈ L, m.pool.Sized i)
    (hnew : old = none → m.pool.listNext x = none ∧ m.pool.listPrev x = none) :
    (m.rechain x old).Returns := by
  have hret := chainEntryToFreeList_returns h.lists
    (fun j => by rw [h.listed, hold]; simp [hx]) (hsz x hx)
    (fun k i hi => hsz i ((h.listed i k).mp hi).1) hnew
  exact (Exec.returns_map _ _).mpr hret

/-- It leaves the links of an entry alone that is in no list yet. -/
theorem Shape.rechain_idle (h : Shape m L B key) (old : Option ℕ) (hx : x ∈ L)
    (hold : key x = old.map sizeToPageOrder) (hy : key y = none) (hyx : y ≠ x)
    (he : m.rechain x old = .ok m') :
    m'.pool.listNext y = m.pool.listNext y ∧ m'.pool.listPrev y = m.pool.listPrev y := by
  obtain ⟨pl, hpl, he⟩ := Exec.bind_eq_ok.mp he
  cases he
  refine chainEntryToFreeList_idle h.lists ⟨h.chain.lt hx, h.chain.id x hx⟩
    (fun j => by rw [h.listed, hold]; simp [hx]) (fun k hk => ?_) hyx hpl
  have := ((h.listed y k).mp hk).2
  rw [hy] at this
  cases this

/-- Rechaining an entry with its old size, and then a new one. -/
theorem Shape.rechain_two_returns (h : Shape m L B key) (old : ℕ) (hx : x ∈ L) (hy : y ∈ L)
    (hxy : x ≠ y) (hkx : key x = some (sizeToPageOrder old)) (hky : key y = none)
    (hsz : ∀ i ∈ L, m.pool.Sized i)
    (hnew : m.pool.listNext y = none ∧ m.pool.listPrev y = none) :
    ∃ m₁ m₂, m.rechain x (some old) = .ok m₁ ∧ m₁.rechain y none = .ok m₂ ∧
      m₂.freeSize = m.freeSize := by
  obtain ⟨m₁, h₁⟩ := h.rechain_returns (some old) hx (by rw [hkx]; rfl) hsz (by simp)
  obtain ⟨hn, hp⟩ := h.rechain_idle (some old) hx (by rw [hkx]; rfl) hky (Ne.symm hxy) h₁
  have hf := MemoryAllocator.freeSize_of_rechain h₁
  obtain ⟨⟨lp, ln, fl, rfl⟩, B₁, hs₁⟩ := h.rechain hx (by rw [hkx]; rfl) h₁
  obtain ⟨m₂, h₂⟩ := hs₁.rechain_returns none hy
    (by rw [Function.update_of_ne (Ne.symm hxy), hky]; rfl) hsz
    fun _ => ⟨hn.trans hnew.1, hp.trans hnew.2⟩
  exact ⟨_, m₂, h₁, h₂, (MemoryAllocator.freeSize_of_rechain h₂).trans hf⟩

theorem deleteEntry_returns (hx : m.pool.Sized x) :
    ∃ m₁, m.deleteEntry x = .ok m₁ ∧ m₁.freeSize = m.freeSize := by
  obtain ⟨m₁, h⟩ : (m.deleteEntry x).Returns := by
    simp [MemoryAllocator.deleteEntry, unchainEntryFromFreeList,
      MemoryEntryPool.getSize_of_sized hx]
  refine ⟨m₁, h, ?_⟩
  obtain ⟨_, -, h⟩ := Exec.bind_eq_ok.mp h
  cases h
  rfl

/-! ## Using a range -/

/-- A range of the entry that leaves no single byte at either end. -/
def MemoryEntryPool.LeavesRoom (p : MemoryEntryPool) (x start size : ℕ) : Prop :=
  start ≠ p.startAddress x + 1 ∧ start + size ≠ p.endAddress x

instance (p : MemoryEntryPool) (x start size : ℕ) : Decidable (p.LeavesRoom x start size) :=
  inferInstanceAs (Decidable (_ ∧ _))

/-- `define_used_memory` can take the range out of the entry : it leaves no single byte, or it
would need a new entry and the pool has none. -/
def MemoryAllocator.Carves (m : MemoryAllocator) (x start size : ℕ) : Prop :=
  m.pool.LeavesRoom x start size ∨
    (m.Full ∧ m.pool.startAddress x < start ∧ start + size ≤ m.pool.endAddress x)

instance (m : MemoryAllocator) (x start size : ℕ) : Decidable (m.Carves x start size) :=
  inferInstanceAs (Decidable (_ ∨ _))

theorem Inv.sized (h : Inv m L B) (hlt : ∀ i ∈ L, m.pool.endAddress i + 1 < 2 ^ 64) :
    ∀ i ∈ L, m.pool.Sized i := by
  intro i hi
  have hle : m.pool.startAddress i ≤ m.pool.endAddress i :=
    h.separated.1 _ (List.mem_map_of_mem hi)
  have := hlt i hi
  exact ⟨hle, by simp only [MemoryEntryPool.size]; omega⟩

theorem useSize_of_le (h : size ≤ m.freeSize) :
    m.useSize size = .ok (.ok (), { m with freeSize := m.freeSize - size }) := by
  simp [MemoryAllocator.useSize, checkedSub_of_le h]

theorem useEntry_returns (hx : m.pool.Sized x) (hf : size ≤ m.freeSize) :
    (m.useEntry x size).Returns := by
  have hdel : ∀ f, (MemoryAllocator.deleteEntry { m with firstEntry := f } x >>=
      fun m₁ => m₁.useSize size).Returns := by
    intro f
    obtain ⟨m₁, hm₁, hf₁⟩ := deleteEntry_returns (m := { m with firstEntry := f }) hx
    rw [hm₁, Exec.ok_bind, useSize_of_le (by rw [hf₁]; exact hf)]
    exact Exec.returns_ok _
  unfold MemoryAllocator.useEntry
  split
  · exact Exec.returns_ok _
  · exact hdel _
  · exact hdel m.firstEntry

/-- `set_range` and the move to another list. -/
theorem Inv.resizeEntry_returns (h : Inv m L B) (hx : x ∈ L) (hsz : ∀ i ∈ L, m.pool.Sized i)
    (hse : s < e) (he : e - s + 1 < 2 ^ 64) :
    ∃ m₁, m.resizeEntry x s e = .ok m₁ ∧ m₁.freeSize = m.freeSize := by
  have hret := (h.shape.withRange x s e).rechain_returns (some (m.pool.size x)) hx rfl
    (fun i hi => MemoryEntryPool.Sized.withRange (fun _ => hsz i hi) hse.le he) (by simp)
  obtain ⟨m₁, hm₁⟩ := hret
  have hf := MemoryAllocator.freeSize_of_rechain hm₁
  refine ⟨m₁, ?_, hf⟩
  simp [MemoryAllocator.resizeEntry, MemoryEntryPool.getSize_of_sized (hsz x hx),
    MemoryEntryPool.setRange, assert_of hse, hm₁]

theorem resizeEntry_assertion (hx : m.pool.Sized x) (hse : ¬s < e) :
    m.resizeEntry x s e = .error .assertion := by
  simp [MemoryAllocator.resizeEntry, MemoryEntryPool.getSize_of_sized hx,
    MemoryEntryPool.setRange, assert, hse]

/-- The last byte of an entry. -/
theorem Inv.useLastByte_returns (h : Inv m L B) (hx : x ∈ L) (hsz : ∀ i ∈ L, m.pool.Sized i)
    (hstart : m.pool.endAddress x = start) (hs : m.pool.startAddress x + 1 < start)
    (hf : 1 ≤ m.freeSize) : (m.useLastByte x start 1).Returns := by
  have hxs := hsz x hx
  have hold : m.pool.size x = start - 1 - m.pool.startAddress x + 1 + 1 := by
    simp only [MemoryEntryPool.size]
    omega
  have hlt : start - 1 - m.pool.startAddress x + 1 + 1 < 2 ^ 64 := hold ▸ hxs.2
  have hsz' : ∀ i ∈ L, (m.pool.withRange x (m.pool.startAddress x) (start - 1)).Sized i :=
    fun i hi => MemoryEntryPool.Sized.withRange (fun _ => hsz i hi) (by omega) (by omega)
  have hsize : (m.pool.withRange x (m.pool.startAddress x) (start - 1)).size x =
      start - 1 - m.pool.startAddress x + 1 := by
    simp [MemoryEntryPool.size, MemoryEntryPool.withRange]
  obtain ⟨m₁, hm₁⟩ := (h.shape.withRange x (m.pool.startAddress x) (start - 1)).rechain_returns
    (some (m.pool.size x)) hx rfl hsz' (by simp)
  have hf₁ := MemoryAllocator.freeSize_of_rechain hm₁
  rw [hold] at hm₁
  simp only [MemoryAllocator.useLastByte, checkedSub_of_le (show 1 ≤ start by omega), Exec.ok_bind,
    MemoryEntryPool.setRange, assert_of (show m.pool.startAddress x < start - 1 by omega),
    Exec.pure_eq_ok, MemoryEntryPool.getSize_of_sized (hsz' x hx), hsize, checkedAdd_of_lt hlt, hm₁]
  rw [useSize_of_le (by rw [hf₁]; exact hf)]
  exact Exec.returns_ok _

/-- A range inside the entry, for which the pool has a new entry. -/
theorem Inv.splitEntry_returns (h : Inv m (A ++ x :: C) B)
    (hsz : ∀ i ∈ A ++ x :: C, m.pool.Sized i) (hs : m.pool.startAddress x + 1 < start)
    (he : start + size < m.pool.endAddress x) (hend : m.pool.endAddress x < 2 ^ 64)
    (hf : size ≤ m.freeSize) : (m.splitEntry x start size).Returns := by
  by_cases hfull : m.Full
  · simp [MemoryAllocator.splitEntry, MemoryAllocator.createMemoryEntry_eq_none.mpr hfull]
  obtain ⟨y, hcreate, hy, hye⟩ := MemoryAllocator.createMemoryEntry_of_not_full hfull
  have hyL := h.shape.chain.not_mem hye
  have hxy : x ≠ y := fun hc => hyL (by simp [hc])
  have hx₀ : (m.pool.fresh y).startAddress x = m.pool.startAddress x ∧
      (m.pool.fresh y).endAddress x = m.pool.endAddress x := by
    simp [MemoryEntryPool.fresh, Function.update_of_ne hxy]
  have hx₁ : ((m.pool.fresh y).withRange y (start + size)
      (m.pool.endAddress x)).startAddress x = m.pool.startAddress x := by
    simp [MemoryEntryPool.withRange, Function.update_of_ne hxy, hx₀.1]
  have hfresh : ∀ i ≠ y, m.pool.Sized i → (m.pool.fresh y).Sized i := by
    intro i hi hsi
    simpa [MemoryEntryPool.Sized, MemoryEntryPool.size, MemoryEntryPool.fresh,
      Function.update_of_ne hi] using hsi
  have hsize : (m.pool.fresh y).getSize x = .ok (m.pool.size x) := by
    rw [MemoryEntryPool.getSize_of_sized (hfresh x hxy (hsz x (by simp))), MemoryEntryPool.size,
      hx₀.1, hx₀.2, MemoryEntryPool.size]
  have hshape := (Shape.insertEntry (A := A ++ [x]) (C := C) (f := m.firstEntry)
    (by simpa using h.shape) hy hye (by rw [h.shape.chain.head]; simp)).withRange y (start + size)
      (m.pool.endAddress x) |>.withRange x (m.pool.startAddress x) (start - 1)
  rw [List.getLast?_concat] at hshape
  have hsz' : ∀ i ∈ A ++ [x] ++ y :: C, (((m.pool.fresh y).withRange y (start + size)
      (m.pool.endAddress x)).withRange x (m.pool.startAddress x) (start - 1)).Sized i := by
    intro i hi
    refine MemoryEntryPool.Sized.withRange (fun _ => MemoryEntryPool.Sized.withRange (fun hiy => ?_)
      he.le (by omega)) (by omega) (by omega)
    refine hfresh i hiy (hsz i ?_)
    simpa [hiy] using hi
  obtain ⟨m₁, m₂, hm₁, hm₂, hfs⟩ := hshape.rechain_two_returns (x := x) (m.pool.size x)
    (by simp) (by simp) hxy (by rw [Function.update_of_ne hxy]; rfl) (Function.update_self ..) hsz'
    (by simp [MemoryEntryPool.withRange, MemoryEntryPool.chained, MemoryEntryPool.fresh])
  have hlink := h.shape.chain.chainNewEntry (q := ((m.pool.fresh y).withRange y (start + size)
    (m.pool.endAddress x)).withRange x (m.pool.startAddress x) (start - 1)) hye rfl rfl
  simp only [MemoryAllocator.splitEntry, hcreate, hsize, Exec.ok_bind,
    checkedAdd_of_lt (show start + size < 2 ^ 64 by omega), MemoryEntryPool.setRange, hx₀.2,
    assert_of he, Exec.pure_eq_ok, checkedSub_of_le (show 1 ≤ start by omega), hx₁,
    assert_of (show m.pool.startAddress x < start - 1 by omega), hlink]
  have hm₁' : MemoryAllocator.rechain { m with
      pool := (((m.pool.fresh y).withRange y (start + size) (m.pool.endAddress x)).withRange x
        (m.pool.startAddress x) (start - 1)).chained y (some x) C.head? } x
          (some (m.pool.size x)) = .ok m₁ := hm₁
  rw [hm₁', Exec.ok_bind, hm₂, Exec.ok_bind, useSize_of_le (by rw [hfs]; exact hf)]
  exact Exec.returns_ok _

/-- One of the two parts would have one byte. -/
theorem Inv.splitEntry_assertion (h : Inv m (A ++ x :: C) B) (hfull : ¬m.Full)
    (hx : m.pool.Sized x) (hs : m.pool.startAddress x < start)
    (he : start + size ≤ m.pool.endAddress x) (hend : m.pool.endAddress x < 2 ^ 64)
    (hroom : ¬m.pool.LeavesRoom x start size) :
    m.splitEntry x start size = .error .assertion := by
  obtain ⟨y, hcreate, hy, hye⟩ := MemoryAllocator.createMemoryEntry_of_not_full hfull
  have hxy : x ≠ y := fun hc => h.shape.chain.not_mem hye (by simp [hc])
  have hx₀ : (m.pool.fresh y).startAddress x = m.pool.startAddress x ∧
      (m.pool.fresh y).endAddress x = m.pool.endAddress x := by
    simp [MemoryEntryPool.fresh, Function.update_of_ne hxy]
  have hx₁ : ((m.pool.fresh y).withRange y (start + size)
      (m.pool.endAddress x)).startAddress x = m.pool.startAddress x := by
    simp [MemoryEntryPool.withRange, Function.update_of_ne hxy, hx₀.1]
  have hsize : (m.pool.fresh y).getSize x = .ok (m.pool.size x) := by
    have := MemoryEntryPool.getSize_of_sized hx
    rwa [MemoryEntryPool.getSize, ← hx₀.1, ← hx₀.2] at this
  simp only [MemoryAllocator.splitEntry, hcreate, hsize, Exec.ok_bind,
    checkedAdd_of_lt (show start + size < 2 ^ 64 by omega), MemoryEntryPool.setRange, hx₀.2]
  by_cases hlast : start + size < m.pool.endAddress x
  · have hfirst : ¬m.pool.startAddress x < start - 1 := by
      simp only [MemoryEntryPool.LeavesRoom] at hroom
      omega
    simp [assert, hlast, checkedSub_of_le (show 1 ≤ start by omega), hx₁, hfirst]
  · simp [assert, hlast]

/-- A range inside an entry can be used if it leaves no single byte of the entry. -/
theorem Inv.useRange_returns (h : Inv m (A ++ x :: C) B)
    (hlt : ∀ i ∈ A ++ x :: C, m.pool.endAddress i + 1 < 2 ^ 64)
    (hs : m.pool.startAddress x ≤ start) (he : start + size ≤ m.pool.endAddress x + 1)
    (hz : size ≠ 0) (hf : size ≤ m.freeSize) (hc : m.Carves x start size) :
    (m.useRange x start size).Returns := by
  have hsz := h.sized hlt
  have hend := hlt x (by simp)
  have hx := hsz x (by simp)
  have hstop : getEndAddress start size = .ok (start + size - 1) := by
    rw [getEndAddress, checkedAdd_of_lt (by omega), Exec.ok_bind, checkedSub_of_le (by omega)]
  simp only [MemoryAllocator.Carves, MemoryEntryPool.LeavesRoom] at hc
  unfold MemoryAllocator.useRange
  split_ifs with h1 h2 h3
  · rw [hstop, Exec.ok_bind]
    split_ifs with h4
    · exact useEntry_returns hx hf
    · obtain ⟨m₁, hm₁, hf₁⟩ := h.resizeEntry_returns (x := x) (s := start + size)
        (e := m.pool.endAddress x) (by simp) hsz (by omega) (by omega)
      rw [checkedAdd_of_lt (by omega), Exec.ok_bind, hm₁, Exec.ok_bind,
        useSize_of_le (by omega)]
      exact Exec.returns_ok _
  · exact Exec.returns_ok _
  · obtain rfl := not_not.mp h3
    exact h.useLastByte_returns (by simp) hsz h2 (by omega) hf
  · rw [hstop, Exec.ok_bind]
    split_ifs with h4
    · obtain ⟨m₁, hm₁, hf₁⟩ := h.resizeEntry_returns (x := x) (s := m.pool.startAddress x)
        (e := start - 1) (by simp) hsz (by omega) (by omega)
      rw [checkedSub_of_le (by omega), Exec.ok_bind, hm₁, Exec.ok_bind,
        useSize_of_le (by omega)]
      exact Exec.returns_ok _
    · by_cases hfull : m.Full
      · simp [MemoryAllocator.splitEntry, MemoryAllocator.createMemoryEntry_eq_none.mpr hfull]
      · have hroom := hc.resolve_right fun hc => hfull hc.1
        exact h.splitEntry_returns hsz (by omega) (by omega) (by omega) hf

/-- Otherwise the assertion of `set_range` stops it. -/
theorem Inv.useRange_assertion (h : Inv m (A ++ x :: C) B)
    (hlt : ∀ i ∈ A ++ x :: C, m.pool.endAddress i + 1 < 2 ^ 64)
    (hs : m.pool.startAddress x ≤ start) (he : start + size ≤ m.pool.endAddress x + 1)
    (hz : size ≠ 0) (hc : ¬m.Carves x start size) :
    m.useRange x start size = .error .assertion := by
  have hend := hlt x (by simp)
  have hx := h.sized hlt x (by simp)
  have hstop : getEndAddress start size = .ok (start + size - 1) := by
    rw [getEndAddress, checkedAdd_of_lt (by omega), Exec.ok_bind, checkedSub_of_le (by omega)]
  obtain ⟨hroom, hfull⟩ := not_or.mp hc
  have hbyte : start = m.pool.startAddress x + 1 ∨ start + size = m.pool.endAddress x := by
    simp only [MemoryEntryPool.LeavesRoom] at hroom
    omega
  unfold MemoryAllocator.useRange
  split_ifs with h1 h2 h3
  · rw [hstop, Exec.ok_bind, if_neg (by omega), checkedAdd_of_lt (by omega), Exec.ok_bind,
      resizeEntry_assertion hx (by omega), Exec.error_bind]
  · omega
  · simp only [MemoryAllocator.useLastByte, checkedSub_of_le (show 1 ≤ start by omega),
      Exec.ok_bind, MemoryEntryPool.setRange]
    simp [assert, show ¬m.pool.startAddress x < start - 1 by omega]
  · rw [hstop, Exec.ok_bind]
    split_ifs with h4
    · rw [checkedSub_of_le (by omega), Exec.ok_bind, resizeEntry_assertion hx (by omega),
        Exec.error_bind]
    · refine h.splitEntry_assertion (fun hc => hfull ⟨hc, ?_, ?_⟩) hx (by omega) (by omega)
        (by omega) hroom
      · omega
      · omega

theorem Inv.useRange_finishes (h : Inv m (A ++ x :: C) B)
    (hlt : ∀ i ∈ A ++ x :: C, m.pool.endAddress i + 1 < 2 ^ 64)
    (hs : m.pool.startAddress x ≤ start) (he : start + size ≤ m.pool.endAddress x + 1)
    (hz : size ≠ 0) (hf : size ≤ m.freeSize) : (m.useRange x start size).Finishes := by
  by_cases hc : m.Carves x start size
  · exact (h.useRange_returns hlt hs he hz hf hc).finishes
  · rw [h.useRange_assertion hlt hs he hz hc]
    exact fun hc => by cases hc

/-! ## Freeing a range -/

theorem Shape.finishExtended_returns (h : Shape m L B key) (old : ℕ) (hx : x ∈ L)
    (hkx : key x = some (sizeToPageOrder old)) (hsz : ∀ i ∈ L, m.pool.Sized i)
    (hf : m.freeSize + size < 2 ^ 64) :
    ∃ m', m.finishExtended x old size = .ok (.ok (), m') ∧ m'.freeSize = m.freeSize + size := by
  obtain ⟨m₁, hm₁⟩ := (h.withFreeSize (m.freeSize + size)).rechain_returns (some old)
    (show _ ∈ L from hx) hkx hsz (by simp)
  have hfs := MemoryAllocator.freeSize_of_rechain hm₁
  refine ⟨m₁, ?_, hfs⟩
  simp only [MemoryAllocator.finishExtended, checkedAdd_of_lt hf, Exec.ok_bind]
  rw [hm₁]
  rfl

section FreeBeside

variable {again : MemoryAllocator → ℕ → ℕ → Exec (MemoryResult Unit × MemoryAllocator)}
  {after old stop c : ℕ} {processed : Bool} {next : Option ℕ}

/-- The next entry does not touch the range or the entry. -/
theorem freeWithNext_of_apart (htop : stop + 1 < 2 ^ 64) (hend : m.pool.endAddress x + 1 < 2 ^ 64)
    (hn : ∀ c, next = some c → start < m.pool.startAddress c ∧ m.pool.startAddress c ≠ stop + 1 ∧
      m.pool.startAddress c ≠ m.pool.endAddress x + 1 ∧ after < m.pool.startAddress c) :
    m.freeWithNext again x after old start stop size processed next =
      if processed then m.finishExtended x old size
      else m.insertEntry x old start stop size next := by
  cases next with
  | none => rfl
  | some c =>
    obtain ⟨h1, h2, h3, h4⟩ := hn c rfl
    have hno : ¬(m.pool.startAddress c = m.pool.endAddress x + 1 ∨
        processed = true ∧ m.pool.startAddress c ≤ after) := by
      rintro (hc | ⟨-, hc⟩)
      · exact h3 hc
      · exact absurd hc (not_le.mpr h4)
    rw [MemoryAllocator.freeWithNext, if_neg (not_le.mpr h1), MemoryAllocator.extendNext,
      checkedAdd_of_lt htop, Exec.ok_bind, if_neg h2, Exec.pure_eq_ok, Exec.ok_bind]
    dsimp only
    rw [MemoryAllocator.mergeNext, checkedAdd_of_lt hend, Exec.ok_bind, if_neg hno,
      Exec.pure_eq_ok, Exec.ok_bind]

/-- The range touches the next entry. -/
theorem freeWithNext_of_touch (htop : stop + 1 < 2 ^ 64) (hs : start < m.pool.startAddress c)
    (hc : m.pool.startAddress c = stop + 1) :
    m.freeWithNext again x after old start stop size processed (some c) =
      (m.resizeEntry c start (m.pool.endAddress c) >>= fun m₁ =>
        m₁.mergeNext x c after true >>= fun m₂ => m₂.finishExtended x old size) := by
  rw [MemoryAllocator.freeWithNext, if_neg (not_le.mpr hs), MemoryAllocator.extendNext,
    checkedAdd_of_lt htop, Exec.ok_bind, if_pos hc]
  cases m.resizeEntry c start (m.pool.endAddress c) with
  | error t => rfl
  | ok m₁ => rfl

/-- The range touches the next entry `c` and not `x`. -/
theorem Inv.growNext_returns (h : Inv m (A ++ x :: c :: C) B)
    (hlt : ∀ i ∈ A ++ x :: c :: C, m.pool.endAddress i + 1 < 2 ^ 64)
    (hx : m.pool.endAddress x + 1 < start) (hs : start < m.pool.startAddress c)
    (hf : m.freeSize + size < 2 ^ 64) :
    ∃ m', (m.resizeEntry c start (m.pool.endAddress c) >>= fun m₁ =>
      m₁.mergeNext x c (m.pool.endAddress x + 1) true >>= fun m₂ =>
        m₂.finishExtended x (m.pool.size x) size) = .ok (.ok (), m') ∧
      m'.freeSize = m.freeSize + size := by
  have hd : (A ++ [x] ++ c :: C).Nodup := by simpa using h.shape.chain.nodup
  have hxc : x ≠ c := (List.nodup_append.mp hd).2.2 x (by simp) c (by simp)
  have hsz := h.sized hlt
  have hc := hsz c (by simp)
  have hsz' : ∀ i ∈ A ++ x :: c :: C,
      (m.pool.withRange c start (m.pool.endAddress c)).Sized i := fun i hi =>
    MemoryEntryPool.Sized.withRange (fun _ => hsz i hi) (by have := hc.1; omega)
      (by have := hlt c (by simp); omega)
  obtain ⟨m₁, hm₁⟩ := (h.shape.withRange c start (m.pool.endAddress c)).rechain_returns
    (some (m.pool.size c)) (by simp) rfl hsz' (by simp)
  have hresize : m.resizeEntry c start (m.pool.endAddress c) = .ok m₁ := by
    have hlt : start < m.pool.endAddress c := by have := hc.1; omega
    simp [MemoryAllocator.resizeEntry, MemoryEntryPool.getSize_of_sized hc,
      MemoryEntryPool.setRange, assert_of hlt, hm₁]
  obtain ⟨⟨lp, ln, fl, rfl⟩, B₁, hs₁⟩ := (h.shape.withRange c start _).rechain_last (by simp)
    rfl (fun i _ hi => (orderOf_eq (range_withRange_of_ne hi)).symm) hm₁
  have hxe : (m.pool.withRange c start (m.pool.endAddress c)).endAddress x = m.pool.endAddress x :=
    Function.update_of_ne hxc _ _
  have hcs : (m.pool.withRange c start (m.pool.endAddress c)).startAddress c = start :=
    Function.update_self ..
  have hxsize : orderOf { m with
      freeList := fl
      pool := { m.pool.withRange c start (m.pool.endAddress c) with
        listPrev := lp, listNext := ln } } x = some (sizeToPageOrder (m.pool.size x)) :=
    orderOf_eq (range_withRange_of_ne hxc)
  obtain ⟨m', hm', hfs⟩ := hs₁.finishExtended_returns (m.pool.size x) (by simp) hxsize hsz' hf
  refine ⟨m', ?_, hfs⟩
  rw [hresize, Exec.ok_bind]
  simp only [MemoryAllocator.mergeNext, hxe, hcs]
  rw [checkedAdd_of_lt (hlt x (by simp)), Exec.ok_bind, if_neg (by omega), Exec.pure_eq_ok,
    Exec.ok_bind, hm']

/-- The range goes from `x` to the next entry `c`. It may start inside of `x`. -/
theorem Inv.growBoth_returns {e after : ℕ} (h : Inv m (A ++ x :: c :: C) B)
    (hlt : ∀ i ∈ A ++ x :: c :: C, m.pool.endAddress i + 1 < 2 ^ 64)
    (hs : start < m.pool.startAddress c) (hx : m.pool.startAddress x ≤ e)
    (he : e < m.pool.startAddress c) (hafter : start ≤ after) (hf : m.freeSize + size < 2 ^ 64) :
    ∃ m', (MemoryAllocator.resizeEntry
      { m with pool := m.pool.withRange x (m.pool.startAddress x) e } c start
        (m.pool.endAddress c) >>= fun m₁ => m₁.mergeNext x c after true >>= fun m₂ =>
          m₂.finishExtended x (m.pool.size x) size) = .ok (.ok (), m') ∧
      m'.freeSize = m.freeSize + size := by
  have hd : (A ++ [x] ++ c :: C).Nodup := by simpa using h.shape.chain.nodup
  have hxc : x ≠ c := (List.nodup_append.mp hd).2.2 x (by simp) c (by simp)
  have hsz := h.sized hlt
  have hxle := (hsz x (by simp)).1
  have hcle := (hsz c (by simp)).1
  have hcend := hlt c (by simp)
  obtain ⟨q, hq⟩ : ∃ q, q = (m.pool.withRange x (m.pool.startAddress x) e).withRange c start
    (m.pool.endAddress c) := ⟨_, rfl⟩
  have hcsize : (m.pool.withRange x (m.pool.startAddress x) e).size c = m.pool.size c := by
    simp [MemoryEntryPool.size, MemoryEntryPool.withRange, Function.update_of_ne (Ne.symm hxc)]
  have hcsz : (m.pool.withRange x (m.pool.startAddress x) e).Sized c :=
    MemoryEntryPool.Sized.withRange (fun _ => hsz c (by simp)) (by omega) (by omega)
  have hsz' : ∀ i ∈ A ++ x :: c :: C, q.Sized i := fun i hi => hq ▸
    MemoryEntryPool.Sized.withRange (fun _ => MemoryEntryPool.Sized.withRange
      (fun _ => hsz i hi) (by omega) (by omega)) (by omega) (by omega)
  have hxs : q.startAddress x = m.pool.startAddress x := by
    simp [hq, MemoryEntryPool.withRange, Function.update_of_ne hxc]
  have hxe : q.endAddress x = e := by
    simp [hq, MemoryEntryPool.withRange, Function.update_of_ne hxc]
  have hcs : q.startAddress c = start := by simp [hq, MemoryEntryPool.withRange]
  have hce : q.endAddress c = m.pool.endAddress c := by simp [hq, MemoryEntryPool.withRange]
  have hshape := (h.shape.withRange x (m.pool.startAddress x) e).withRange c start
    (m.pool.endAddress c)
  simp only [← hq] at hshape
  obtain ⟨m₁, hm₁⟩ := hshape.rechain_returns (some (m.pool.size c)) (by simp) rfl hsz' (by simp)
  have hresize : MemoryAllocator.resizeEntry
      { m with pool := m.pool.withRange x (m.pool.startAddress x) e } c start
        (m.pool.endAddress c) = .ok m₁ := by
    rw [MemoryAllocator.resizeEntry, MemoryEntryPool.getSize_of_sized hcsz, Exec.ok_bind, hcsize,
      MemoryEntryPool.setRange, assert_of (by omega), Exec.ok_bind, Exec.pure_eq_ok, Exec.ok_bind,
      ← hq]
    exact hm₁
  obtain ⟨⟨lp, ln, fl, rfl⟩, B₁, hs₁⟩ := hshape.rechain (by simp) rfl hm₁
  -- The merged entry is `x` with the end of `c`, and `c` goes.
  have hs₂ := hs₁.withRange x (m.pool.startAddress x) (m.pool.endAddress c)
  have hL : A ++ x :: c :: C = A ++ [x] ++ c :: C := by simp
  rw [hL] at hs₂
  have hsz₂ : ∀ i ∈ A ++ x :: c :: C, MemoryEntryPool.Sized
      (MemoryEntryPool.withRange { q with listPrev := lp, listNext := ln } x
        (m.pool.startAddress x) (m.pool.endAddress c)) i := fun i hi =>
    MemoryEntryPool.Sized.withRange (fun _ => hsz' i hi) (by omega) (by omega)
  obtain ⟨m₂, hm₂, hfs₂⟩ := deleteEntry_returns (m := { m with
      freeList := fl
      pool := MemoryEntryPool.withRange { q with listPrev := lp, listNext := ln } x
        (m.pool.startAddress x) (m.pool.endAddress c) }) (hsz₂ c (by simp))
  have hkc : q.size c = MemoryEntryPool.size (MemoryEntryPool.withRange
      { q with listPrev := lp, listNext := ln } x (m.pool.startAddress x) (m.pool.endAddress c)) c := by
    simp [MemoryEntryPool.size, MemoryEntryPool.withRange, Function.update_of_ne (Ne.symm hxc)]
  obtain ⟨-, hrange₂, B₂, hs₃⟩ := hs₂.deleteEntry (f := m.firstEntry)
    (by
      rw [Function.update_self]
      exact congrArg (fun n => some (sizeToPageOrder n)) hkc)
    (by rw [h.shape.chain.head]; simp) hm₂
  have hsz₃ : ∀ i ∈ A ++ [x] ++ C, m₂.pool.Sized i := by
    intro i hi
    have hmem : i ∈ A ++ x :: c :: C := by
      simp only [List.mem_append, List.mem_cons, List.not_mem_nil, or_false] at hi ⊢
      tauto
    have hr := congrFun hrange₂ i
    obtain ⟨h1, h2⟩ := Prod.ext_iff.mp hr
    have := hsz₂ i hmem
    simp only [MemoryEntryPool.range] at h1 h2
    simpa only [MemoryEntryPool.Sized, MemoryEntryPool.size, h1, h2] using this
  obtain ⟨m', hm', hfs⟩ := hs₃.finishExtended_returns (x := x) (m.pool.size x) (by simp)
    (by rw [Function.update_of_ne hxc]; rfl) hsz₃ (by rw [hfs₂]; exact hf)
  refine ⟨m', ?_, hfs.trans (by rw [hfs₂])⟩
  rw [hresize, Exec.ok_bind, MemoryAllocator.mergeNext]
  dsimp only
  rw [hxe, checkedAdd_of_lt (by omega), Exec.ok_bind, hcs, hce, hxs,
    if_pos (.inr ⟨rfl, hafter⟩), max_eq_right (by omega), MemoryEntryPool.setRange,
    assert_of (by omega), Exec.ok_bind, Exec.pure_eq_ok, Exec.ok_bind, hm₂, Exec.ok_bind, hm']

/-- The pool has no entry for a range that touches none. -/
theorem insertEntry_full {old : ℕ} (h : m.Full) :
    m.insertEntry x old s e size next = .ok (.error .noEntry, m) := by
  simp only [MemoryAllocator.insertEntry, MemoryAllocator.createMemoryEntry_eq_none.mpr h]

/-- The new entry of `define_free_memory`. -/
theorem Inv.insertEntry_returns (h : Inv m (A ++ C) B)
    (hlt : ∀ i ∈ A ++ C, m.pool.endAddress i + 1 < 2 ^ 64) (hx : x ∈ A ++ C)
    (hlink : ∀ y, y < poolSize → m.pool.enabled y = false →
      MemoryAllocator.linkNewEntry { m with pool := (m.pool.fresh y).withRange y s e } x y next =
        .ok { m with
          firstEntry := (A ++ y :: C).head?
          pool := ((m.pool.fresh y).withRange y s e).chained y A.getLast? C.head? })
    (hfull : ¬m.Full) (hse : s < e) (he : e < 2 ^ 64 - 1) (hf : m.freeSize + size < 2 ^ 64) :
    ∃ m', m.insertEntry x (m.pool.size x) s e size next = .ok (.ok (), m') ∧
      m'.freeSize = m.freeSize + size := by
  obtain ⟨y, hcreate, hy, hye⟩ := MemoryAllocator.createMemoryEntry_of_not_full hfull
  have hyL := h.shape.chain.not_mem hye
  have hxy : x ≠ y := fun hc => hyL (hc ▸ hx)
  have hsz := h.sized hlt
  have hmem : ∀ {i}, i ∈ A ++ C → i ∈ A ++ y :: C := by
    intro i hi
    simp only [List.mem_append, List.mem_cons] at hi ⊢
    tauto
  have hsz' : ∀ i ∈ A ++ y :: C, ((m.pool.fresh y).withRange y s e).Sized i := by
    intro i hi
    refine MemoryEntryPool.Sized.withRange (fun hiy => ?_) hse.le (by omega)
    have hmem : i ∈ A ++ C := by
      simp only [List.mem_append, List.mem_cons, hiy, false_or] at hi ⊢
      exact hi
    simpa [MemoryEntryPool.Sized, MemoryEntryPool.size, MemoryEntryPool.fresh,
      Function.update_of_ne hiy] using hsz i hmem
  have hshape := ((h.shape.insertEntry hy hye rfl).withRange y s e).withFreeSize
    (m.freeSize + size)
  obtain ⟨m₁, m₂, hm₁, hm₂, hfs⟩ := hshape.rechain_two_returns (m.pool.size x) (hmem hx) (by simp)
    hxy (by rw [Function.update_of_ne hxy]; rfl) (Function.update_self ..) hsz'
    (by simp [MemoryEntryPool.withRange, MemoryEntryPool.chained, MemoryEntryPool.fresh])
  have hm₁' : MemoryAllocator.rechain { m with
      freeSize := m.freeSize + size
      firstEntry := (A ++ y :: C).head?
      pool := ((m.pool.fresh y).withRange y s e).chained y A.getLast? C.head? } x
        (some (m.pool.size x)) = .ok m₁ := hm₁
  refine ⟨m₂, ?_, hfs⟩
  simp only [MemoryAllocator.insertEntry, hcreate, MemoryEntryPool.setRange, assert_of hse,
    Exec.ok_bind, Exec.pure_eq_ok, hlink y hy hye, checkedAdd_of_lt hf]
  rw [hm₁', Exec.ok_bind, hm₂, Exec.ok_bind]

/-- The start of the entry does not change while its end grows, so a range behind it does not
touch it. -/
theorem extendStart_of_ne {p : MemoryEntryPool} (htop : stop + 1 < 2 ^ 64)
    (hne : p.previous x = none → p.startAddress x ≠ stop + 1) :
    MemoryAllocator.extendStart p x start stop processed = .ok (p, processed) := by
  unfold MemoryAllocator.extendStart
  split_ifs with hprev
  · rw [checkedAdd_of_lt htop, Exec.ok_bind, if_neg (hne hprev)]
    rfl
  · rfl

/-- `define_free_memory` for a range that begins and ends at no entry : it becomes a new entry. -/
theorem Inv.freeBeside_insert (h : Inv m (A ++ x :: C) B)
    (hlt : ∀ i ∈ A ++ x :: C, m.pool.endAddress i + 1 < 2 ^ 64) (htop : stop + 1 < 2 ^ 64)
    (hleft : m.pool.endAddress x + 1 ≠ start) (hfirst : A = [] → m.pool.startAddress x ≠ stop + 1)
    (hnext : ∀ c, C.head? = some c → start < m.pool.startAddress c ∧ m.pool.startAddress c ≠ stop + 1) :
    m.freeBeside again x start stop size =
      m.insertEntry x (m.pool.size x) start stop size C.head? := by
  have hxend := hlt x (by simp)
  have hprev : m.pool.previous x = none → A = [] := by
    rw [h.shape.chain.previous]
    exact List.getLast?_eq_none_iff.mp
  have hsep := h.separated
  simp only [List.map_append, List.map_cons] at hsep
  have hgap : ∀ c ∈ C, m.pool.endAddress x + 1 < m.pool.startAddress c := fun c hc =>
    (separated_cons.mp (separated_append.mp hsep).2.1).2.2 _ (List.mem_map_of_mem hc)
  rw [MemoryAllocator.freeBeside, MemoryEntryPool.getSize_of_sized (h.sized hlt x (by simp)), Exec.ok_bind,
    checkedAdd_of_lt hxend, Exec.ok_bind, MemoryAllocator.extendEnd, if_neg hleft,
    Exec.pure_eq_ok, Exec.ok_bind]
  dsimp only
  rw [extendStart_of_ne htop fun hp => hfirst (hprev hp), Exec.ok_bind]
  dsimp only
  rw [h.shape.chain.getNextEntry, freeWithNext_of_apart htop hxend fun c hc => ?_,
    if_neg (by simp)]
  have h1 := hnext c hc
  have h2 := hgap c (List.mem_of_head? hc)
  omega

/-- `define_free_memory` at the last entry `x` that ends before the range, which touches no entry :
the range becomes a new entry. -/
theorem Inv.freeAfter_apart (h : Inv m (A ++ x :: C) B)
    (hlt : ∀ i ∈ A ++ x :: C, m.pool.endAddress i + 1 < 2 ^ 64) (hx : m.pool.endAddress x < start)
    (hC : ∀ c ∈ C, stop < m.pool.startAddress c) (hs : start ≤ stop) (htop : stop + 1 < 2 ^ 64)
    (hleft : m.pool.endAddress x + 1 ≠ start)
    (hright : ¬∃ c C', C = c :: C' ∧ m.pool.startAddress c = stop + 1) :
    m.freeBeside again x start stop size =
      m.insertEntry x (m.pool.size x) start stop size C.head? := by
  have hx' := h.sized hlt x (by simp)
  have hgap := h.lt_of_not_touch hright hC
  refine h.freeBeside_insert hlt htop hleft (fun _ => ?_) fun c hc => ?_
  · have := hx'.1
    omega
  · have := hgap c (List.mem_of_head? hc)
    omega

/-- The range touches `x`, the next entry, or both. -/
theorem Inv.freeAfter_touch (h : Inv m (A ++ x :: C) B)
    (hlt : ∀ i ∈ A ++ x :: C, m.pool.endAddress i + 1 < 2 ^ 64) (hx : m.pool.endAddress x < start)
    (hC : ∀ c ∈ C, stop < m.pool.startAddress c) (hs : start ≤ stop) (htop : stop + 1 < 2 ^ 64)
    (hf : m.freeSize + size < 2 ^ 64)
    (htouch : m.pool.endAddress x + 1 = start ∨
      ∃ c C', C = c :: C' ∧ m.pool.startAddress c = stop + 1) :
    ∃ m', m.freeBeside again x start stop size = .ok (.ok (), m') ∧
      m'.freeSize = m.freeSize + size := by
  have hsz := h.sized hlt
  have hxle := (hsz x (by simp)).1
  have hxend := hlt x (by simp)
  have hnodup := List.nodup_cons.mp (List.nodup_append.mp h.shape.chain.nodup).2.1
  have hnext : m.pool.getNextEntry x = C.head? := h.shape.chain.getNextEntry
  rw [MemoryAllocator.freeBeside, MemoryEntryPool.getSize_of_sized (hsz x (by simp)), Exec.ok_bind,
    checkedAdd_of_lt hxend, Exec.ok_bind, MemoryAllocator.extendEnd]
  by_cases hleft : m.pool.endAddress x + 1 = start
  · rw [if_pos hleft, MemoryEntryPool.setRange, assert_of (by omega), Exec.ok_bind,
      Exec.pure_eq_ok, Exec.ok_bind, Exec.pure_eq_ok, Exec.ok_bind]
    dsimp only
    rw [extendStart_of_ne htop fun _ => by simp [MemoryEntryPool.withRange]; omega, Exec.ok_bind]
    have hnext' : (m.pool.withRange x (m.pool.startAddress x) stop).getNextEntry x = C.head? := hnext
    dsimp only
    rw [hnext']
    have hcs : ∀ c, (m.pool.withRange x (m.pool.startAddress x) stop).startAddress c =
        m.pool.startAddress c := fun c => by simp [MemoryEntryPool.withRange]
    have hxe : (m.pool.withRange x (m.pool.startAddress x) stop).endAddress x = stop := by
      simp [MemoryEntryPool.withRange]
    by_cases hright : ∃ c C', C = c :: C' ∧ m.pool.startAddress c = stop + 1
    · obtain ⟨c, C', rfl, hc⟩ := hright
      have hce : (m.pool.withRange x (m.pool.startAddress x) stop).endAddress c =
          m.pool.endAddress c := Function.update_of_ne (fun hcx => hnodup.1 (by simp [hcx])) _ _
      rw [List.head?_cons, freeWithNext_of_touch htop (by rw [hcs]; omega) ((hcs c).trans hc), hce]
      exact h.growBoth_returns hlt (by omega) (by omega) (by omega) hleft.ge hf
    · have hgap := h.lt_of_not_touch hright hC
      obtain ⟨m', hm', hfs⟩ := (h.shape.withRange x (m.pool.startAddress x)
        stop).finishExtended_returns (x := x) (m.pool.size x) (by simp) rfl
        (fun i hi => MemoryEntryPool.Sized.withRange (fun _ => hsz i hi) (by omega) (by omega)) hf
      refine ⟨m', ?_, hfs⟩
      rw [freeWithNext_of_apart htop (by rw [hxe]; exact htop) fun c hc => ?_, if_pos rfl, hm']
      have h1 := hgap c (List.mem_of_head? hc)
      simp only [hcs, hxe]
      omega
  · obtain ⟨c, C', rfl, hc⟩ := htouch.resolve_left hleft
    rw [if_neg hleft, Exec.pure_eq_ok, Exec.ok_bind]
    dsimp only
    rw [extendStart_of_ne htop fun _ => by omega, Exec.ok_bind]
    dsimp only
    rw [hnext, List.head?_cons,
      freeWithNext_of_touch htop (show start < m.pool.startAddress c by omega) hc]
    exact h.growNext_returns hlt (show m.pool.endAddress x + 1 < start by omega)
      (show start < m.pool.startAddress c by omega) hf

/-- `define_free_memory` at the first entry, which starts after the range and does not touch it. -/
theorem Inv.freeBefore_apart (h : Inv m (x :: C) B)
    (hlt : ∀ i ∈ x :: C, m.pool.endAddress i + 1 < 2 ^ 64) (hs : start ≤ stop)
    (hx : stop + 1 < m.pool.startAddress x) :
    m.freeBeside again x start stop size =
      m.insertEntry x (m.pool.size x) start stop size C.head? := by
  have hle := (h.sized hlt x (by simp)).1
  have hxend := hlt x (by simp)
  refine Inv.freeBeside_insert (A := []) h hlt (by omega) (by omega) (fun _ => by omega) fun c hc => ?_
  have : m.pool.endAddress x + 1 < m.pool.startAddress c :=
    (separated_cons.mp h.separated).2.2 _ (List.mem_map_of_mem (List.mem_of_head? hc))
  omega

/-- It touches the first entry. -/
theorem Inv.freeBefore_touch (h : Inv m (x :: C) B)
    (hlt : ∀ i ∈ x :: C, m.pool.endAddress i + 1 < 2 ^ 64) (hs : start ≤ stop)
    (hx : m.pool.startAddress x = stop + 1) (hf : m.freeSize + size < 2 ^ 64) :
    ∃ m', m.freeBeside again x start stop size = .ok (.ok (), m') ∧
      m'.freeSize = m.freeSize + size := by
  have hsz := h.sized hlt
  have hxle := (hsz x (by simp)).1
  have hxend := hlt x (by simp)
  have hxC : ∀ c ∈ C, m.pool.endAddress x + 1 < m.pool.startAddress c := fun c hc =>
    (separated_cons.mp h.separated).2.2 _ (List.mem_map_of_mem hc)
  have hprev : m.pool.previous x = none := h.shape.chain.previous (A := [])
  have hnext : (m.pool.withRange x start (m.pool.endAddress x)).getNextEntry x = C.head? :=
    h.shape.chain.getNextEntry (A := [])
  have hxe : (m.pool.withRange x start (m.pool.endAddress x)).endAddress x =
      m.pool.endAddress x := by
    simp [MemoryEntryPool.withRange]
  obtain ⟨m', hm', hfs⟩ := (h.shape.withRange x start
    (m.pool.endAddress x)).finishExtended_returns (x := x) (m.pool.size x) (by simp) rfl
    (fun i hi => MemoryEntryPool.Sized.withRange (fun _ => hsz i hi) (by omega) (by omega)) hf
  refine ⟨m', ?_, hfs⟩
  rw [MemoryAllocator.freeBeside, MemoryEntryPool.getSize_of_sized (hsz x (by simp)), Exec.ok_bind,
    checkedAdd_of_lt hxend, Exec.ok_bind, MemoryAllocator.extendEnd, if_neg (by omega),
    Exec.pure_eq_ok, Exec.ok_bind]
  dsimp only
  rw [MemoryAllocator.extendStart, if_pos hprev, checkedAdd_of_lt (by omega), Exec.ok_bind,
    if_pos hx, MemoryEntryPool.setRange, assert_of (by omega), Exec.ok_bind, Exec.pure_eq_ok,
    Exec.ok_bind, Exec.pure_eq_ok, Exec.ok_bind]
  dsimp only
  rw [hnext, freeWithNext_of_apart (by omega) (by rw [hxe]; exact hxend) fun c hc => ?_,
    if_pos rfl, hm']
  have hmem := List.mem_of_head? hc
  have hcx : c ≠ x := fun hcx => (List.nodup_cons.mp h.shape.chain.nodup).1 (hcx ▸ hmem)
  have hcs : (m.pool.withRange x start (m.pool.endAddress x)).startAddress c =
      m.pool.startAddress c := Function.update_of_ne hcx _ _
  have h1 := hxC c hmem
  simp only [hcs, hxe]
  omega

end FreeBeside

theorem Inv.endAddress_mem {i : ℕ} (h : Inv m L B) (hi : i ∈ L) :
    m.pool.endAddress i ∈ m.freeBytes :=
  h.freeBytes_eq ▸ ⟨_, List.mem_map_of_mem hi,
    h.separated.1 _ (List.mem_map_of_mem hi), le_rfl⟩

theorem Inv.startAddress_mem {i : ℕ} (h : Inv m L B) (hi : i ∈ L) :
    m.pool.startAddress i ∈ m.freeBytes :=
  h.freeBytes_eq ▸ ⟨_, List.mem_map_of_mem hi, le_rfl,
    h.separated.1 _ (List.mem_map_of_mem hi)⟩

/-- A range that is next to a free byte is next to the entry `define_free_memory` works at, or to
the one after it. -/
theorem Inv.touches_iff (h : Inv m (A ++ x :: C) B)
    (hside : (m.pool.endAddress x < start ∧ ∀ c ∈ C, start + size ≤ m.pool.startAddress c) ∨
      (A = [] ∧ start + size ≤ m.pool.startAddress x)) :
    m.Touches start size ↔ m.pool.endAddress x + 1 = start ∨
      (∃ c C', C = c :: C' ∧ m.pool.startAddress c = start + size) ∨
        (A = [] ∧ m.pool.startAddress x = start + size) := by
  have hsep := h.separated
  simp only [List.map_append, List.map_cons] at hsep
  have hxC := separated_cons.mp (separated_append.mp hsep).2.1
  have hAx : ∀ i ∈ A, m.pool.endAddress i + 1 < m.pool.startAddress x := fun i hi =>
    (separated_append.mp hsep).2.2 _ (List.mem_map_of_mem hi) (m.pool.range x) (by simp)
  have hgap : ∀ c ∈ C, m.pool.endAddress x + 1 < m.pool.startAddress c := fun c hc =>
    hxC.2.2 _ (List.mem_map_of_mem hc)
  have hxle : m.pool.startAddress x ≤ m.pool.endAddress x := hxC.1
  have hout : ∀ i ∈ A ++ x :: C, m.pool.endAddress i < start ∨
      start + size ≤ m.pool.startAddress i := by
    intro i hi
    rcases hside with ⟨hx, hC⟩ | ⟨rfl, hx⟩
    · simp only [List.mem_append, List.mem_cons] at hi
      rcases hi with hi | rfl | hi
      · have := hAx i hi
        omega
      · exact .inl hx
      · exact .inr (hC i hi)
    · rcases List.mem_cons.mp hi with rfl | hi
      · exact .inr hx
      · have := hgap i hi
        omega
  constructor
  · rintro (⟨b, hb, hbs⟩ | hb)
    · obtain ⟨_, hmem, hb⟩ := h.freeBytes_eq ▸ hb
      obtain ⟨i, hi, rfl⟩ := List.mem_map.mp hmem
      simp only [MemoryEntryPool.range] at hb
      have hi' := hout i hi
      have hend : m.pool.endAddress i + 1 = start := by omega
      -- No other entry ends there.
      obtain rfl : i = x := by
        simp only [List.mem_append, List.mem_cons] at hi
        rcases hi with hi | hi | hi
        · have := hAx i hi
          rcases hside with ⟨hx, -⟩ | ⟨rfl, -⟩
          · omega
          · simp at hi
        · exact hi
        · have := hgap i hi
          rcases hside with ⟨-, hC⟩ | ⟨-, hx⟩
          · have := hC i hi
            omega
          · omega
      exact .inl hend
    · obtain ⟨_, hmem, hb⟩ := h.freeBytes_eq ▸ hb
      obtain ⟨i, hi, rfl⟩ := List.mem_map.mp hmem
      simp only [MemoryEntryPool.range] at hb
      have hi' := hout i hi
      have hstart : m.pool.startAddress i = start + size := by omega
      right
      simp only [List.mem_append, List.mem_cons] at hi
      rcases hside with ⟨hx, hC⟩ | ⟨rfl, hx⟩
      · rcases hi with hi | rfl | hi
        · have := hAx i hi
          omega
        · omega
        · obtain ⟨c, C, rfl⟩ := List.exists_cons_of_ne_nil (List.ne_nil_of_mem hi)
          rcases List.mem_cons.mp hi with rfl | hi
          · exact .inl ⟨_, _, rfl, hstart⟩
          · have hcC := separated_cons.mp hxC.2.1
            have h1 := hcC.2.2 _ (List.mem_map_of_mem hi)
            have h2 := hC c (by simp)
            have h3 := hcC.1
            simp only [MemoryEntryPool.range] at h1 h3
            omega
      · rcases hi with hi | rfl | hi
        · simp at hi
        · exact .inr ⟨rfl, hstart⟩
        · have := hgap i hi
          omega
  · rintro (hc | ⟨c, C, rfl, hc⟩ | ⟨rfl, hc⟩)
    · exact .inl ⟨_, h.endAddress_mem (by simp), hc⟩
    · exact .inr (hc ▸ h.startAddress_mem (by simp))
    · exact .inr (hc ▸ h.startAddress_mem (by simp))

/-- What `free` needs to return : no entry is left and none grows, or an entry grows or the range
has two bytes, and `free_size` does not overflow when the size is added twice. -/
def MemoryAllocator.Releases (m : MemoryAllocator) (start size : ℕ) : Prop :=
  (m.Full ∧ ¬m.Touches start size) ∨
    ((2 ≤ size ∨ m.Touches start size) ∧ m.freeSize + 2 * size < 2 ^ 64)

section FreeBeside

variable {again : MemoryAllocator → ℕ → ℕ → Exec (MemoryResult Unit × MemoryAllocator)} {stop : ℕ}

/-- The two ways in which `define_free_memory` returns. -/
def Releasing (m : MemoryAllocator) (size : ℕ) (x : Exec (MemoryResult Unit × MemoryAllocator)) :
    Prop :=
  x = .ok (.error .noEntry, m) ∨ (m.freeSize + 2 * size < 2 ^ 64 ∧
    ∃ m₁, x = .ok (.ok (), m₁) ∧ m₁.freeSize = m.freeSize + size)

theorem Inv.freeAfter_returns (h : Inv m (A ++ x :: C) B)
    (hlt : ∀ i ∈ A ++ x :: C, m.pool.endAddress i + 1 < 2 ^ 64) (hz : size ≠ 0)
    (hstop : stop + 1 = start + size) (htop : stop + 1 < 2 ^ 64) (hx : m.pool.endAddress x < start)
    (hC : ∀ c ∈ C, start + size ≤ m.pool.startAddress c) (hok : m.Releases start size) :
    Releasing m size (m.freeBeside again x start stop size) := by
  have hxle := (h.sized hlt x (by simp)).1
  have hs : start ≤ stop := by omega
  have hsum : m.freeSize + 2 * size < 2 ^ 64 → m.freeSize + size < 2 ^ 64 := by omega
  have hiff := h.touches_iff (.inl ⟨hx, hC⟩)
  have hC' : ∀ c ∈ C, stop < m.pool.startAddress c := fun c hc => by
    have := hC c hc
    omega
  rw [← hstop] at hiff
  by_cases htouch : m.pool.endAddress x + 1 = start ∨
      ∃ c C', C = c :: C' ∧ m.pool.startAddress c = stop + 1
  · have hT : m.Touches start size := by
      rw [hiff]
      exact htouch.elim .inl fun hc => .inr (.inl hc)
    have hf := (hok.resolve_left fun hc => hc.2 hT).2
    exact .inr ⟨hf, h.freeAfter_touch hlt hx hC' hs htop (hsum hf) htouch⟩
  · obtain ⟨hleft, hright⟩ := not_or.mp htouch
    have hT : ¬m.Touches start size := by
      rw [hiff]
      rintro (hc | hc | ⟨-, hc⟩)
      · exact hleft hc
      · exact hright hc
      · omega
    rw [h.freeAfter_apart hlt hx hC' hs htop hleft hright]
    by_cases hfull : m.Full
    · exact .inl (insertEntry_full hfull)
    · obtain ⟨hsize, hf⟩ := hok.resolve_left fun hc => hfull hc.1
      have hsize := hsize.resolve_right hT
      have hL : A ++ x :: C = A ++ [x] ++ C := by simp
      have hchain := h.shape.chain
      rw [hL] at h hlt
      refine .inr ⟨hf, h.insertEntry_returns hlt (by simp) (fun y hy hye => ?_) hfull
        (by omega) (by omega) (by omega)⟩
      rw [hchain.linkNewEntry_after hye (fun _ => by omega) fun _ => hx, List.getLast?_concat, hchain.head]
      simp

theorem Inv.freeBefore_returns (h : Inv m (x :: C) B)
    (hlt : ∀ i ∈ x :: C, m.pool.endAddress i + 1 < 2 ^ 64) (hz : size ≠ 0)
    (hstop : stop + 1 = start + size) (hx : start + size ≤ m.pool.startAddress x)
    (hok : m.Releases start size) :
    Releasing m size (m.freeBeside again x start stop size) := by
  have hxle := (h.sized hlt x (by simp)).1
  have hxend := hlt x (by simp)
  have hiff := Inv.touches_iff (A := []) h (.inr ⟨rfl, hx⟩)
  by_cases htouch : m.pool.startAddress x = stop + 1
  · have hT : m.Touches start size := by
      rw [hiff]
      exact .inr (.inr ⟨rfl, by omega⟩)
    have hf := (hok.resolve_left fun hc => hc.2 hT).2
    exact .inr ⟨hf, h.freeBefore_touch hlt (by omega) htouch (by omega)⟩
  · have hT : ¬m.Touches start size := by
      rw [hiff]
      rintro (hc | ⟨c, C, rfl, hc⟩ | ⟨-, hc⟩)
      · omega
      · have := (separated_cons.mp h.separated).2.2 (m.pool.range c) (by simp)
        simp only [MemoryEntryPool.range] at this
        omega
      · omega
    rw [h.freeBefore_apart hlt (by omega) (by omega)]
    by_cases hfull : m.Full
    · exact .inl (insertEntry_full hfull)
    · obtain ⟨hsize, hf⟩ := hok.resolve_left fun hc => hfull hc.1
      have hsize := hsize.resolve_right hT
      refine .inr ⟨hf, Inv.insertEntry_returns (A := []) h hlt (by simp) (fun y hy hye => ?_) hfull
        (by omega) (by omega) (by omega)⟩
      rw [h.shape.chain.linkNewEntry_before hye (fun _ => by omega) fun _ => by omega]
      simp

end FreeBeside

theorem free_of_releasing (hf : m.freeSize ≠ 0)
    (h : Releasing m size (MemoryAllocator.defineFreeMemory (4 * poolSize) m start size)) :
    (m.free start size).Returns := by
  rw [MemoryAllocator.free, if_neg hf]
  rcases h with h | ⟨hlt, m₁, h, hfs⟩
  · rw [h]
    exact Exec.returns_ok _
  · rw [h, Exec.ok_bind]
    dsimp only
    rw [checkedAdd_of_lt (by omega)]
    exact Exec.returns_ok _

theorem Inv.freeSize_ne_zero (h : Inv m L B) (hL : L ≠ []) : m.freeSize ≠ 0 := by
  have hcount := h.counted
  obtain ⟨i, L, rfl⟩ := List.exists_cons_of_ne_nil hL
  simp only [List.map_cons, total_cons] at hcount
  omega

/-- `free` on a range that is not free, while other memory is. -/
theorem Inv.free_returns (h : Inv m L B) (hL : L ≠ [])
    (hlt : ∀ i ∈ L, m.pool.endAddress i + 1 < 2 ^ 64) (hz : size ≠ 0)
    (hfree : Disjoint (Set.Ico start (start + size)) m.freeBytes) (htop : start + size < 2 ^ 64)
    (hok : m.Releases start size) : (m.free start size).Returns := by
  refine free_of_releasing (h.freeSize_ne_zero hL) ?_
  rw [h.freeBytes_eq] at hfree
  obtain ⟨A, x, C, rfl, heq, hside⟩ := h.defineFreeMemory_eq hL hz
    (fun b hb hc => Set.disjoint_left.mp hfree hb hc) 255
  have hstop : getEndAddress start size = .ok (start + size - 1) := by
    rw [getEndAddress, checkedAdd_of_lt htop, Exec.ok_bind, checkedSub_of_le (by omega)]
  rw [hstop, Exec.ok_bind] at heq
  rw [show 4 * poolSize = 255 + 1 from rfl, heq]
  rcases hside with ⟨hx, hC⟩ | ⟨rfl, hx⟩
  · exact h.freeAfter_returns hlt hz (by omega) (by omega) hx hC hok
  · exact h.freeBefore_returns hlt hz (by omega) hx hok

end

end MiniVisor
