import MiniVisor.AddressChain
import MiniVisor.FreeListOrder

/-!
# The invariant of the allocator

`Inv m L B` : the chain visits `L`, whose ranges are sorted, disjoint and never adjacent, and
every entry is in the free list `B` of its size, in the order of the sizes. `free_size` is only bounded
from below by the number of free bytes, because `free` counts a range twice.

`Inv.useRange` carves a range out of one entry, in the four cases of `define_used_memory`, and
`Inv.defineFreeMemory` adds a range that is not free yet, in the cases of
`define_free_memory` : before the first entry, beside one neighbour, between two, or alone. Both
say what happens to the covered bytes.
-/

namespace MiniVisor

open Machine

/-- The order of the free list for the size of an entry. -/
def orderOf (m : MemoryAllocator) (i : ℕ) : Option ℕ :=
  some (sizeToPageOrder (m.pool.size i))

structure Inv (m : MemoryAllocator) (L : List ℕ) (B : ℕ → List ℕ) : Prop where
  shape : Shape m L B (orderOf m)
  sorted : SizeSorted m.pool.size B
  separated : Separated (L.map m.pool.range)
  counted : total (L.map m.pool.range) ≤ m.freeSize
  unused : L = [] → m.freeSize = 0

section

variable {m m' m₁ : MemoryAllocator} {A C L : List ℕ} {B : ℕ → List ℕ} {key key' : ℕ → Option ℕ}
  {x y start size s e : ℕ} {r : MemoryResult Unit}

theorem Shape.congr_key (h : Shape m L B key) (hk : ∀ i ∈ L, key' i = key i) :
    Shape m L B key' := by
  refine ⟨h.chain, h.lists, fun i k => ?_⟩
  rw [h.listed]
  exact and_congr_right fun hi => by rw [hk i hi]

theorem size_eq {p q : MemoryEntryPool} {i : ℕ} (h : q.range i = p.range i) : q.size i = p.size i := by
  obtain ⟨h1, h2⟩ := Prod.ext_iff.mp h
  simp only [MemoryEntryPool.range] at h1 h2
  simp only [MemoryEntryPool.size, h1, h2]

/-- The order of an entry whose range did not change. -/
theorem orderOf_eq {i : ℕ} (h : m'.pool.range i = m.pool.range i) : orderOf m' i = orderOf m i := by
  rw [orderOf, orderOf, size_eq h]

theorem range_withRange_of_ne {p : MemoryEntryPool} {i : ℕ} (h : i ≠ x) :
    (p.withRange x s e).range i = p.range i := by
  simp [MemoryEntryPool.range, MemoryEntryPool.withRange, Function.update_of_ne h]

theorem range_fresh_of_ne {p : MemoryEntryPool} {i : ℕ} (h : i ≠ y) :
    (p.fresh y).range i = p.range i := by
  simp [MemoryEntryPool.range, MemoryEntryPool.fresh, Function.update_of_ne h]

theorem size_withRange_of_ne {p : MemoryEntryPool} {i : ℕ} (h : i ≠ x) :
    (p.withRange x s e).size i = p.size i := by
  simp [MemoryEntryPool.size, MemoryEntryPool.withRange, Function.update_of_ne h]

/-- The sizes at which the entries are filed when one has a new range. -/
theorem update_size_withRange (p : MemoryEntryPool) (x s e : ℕ) :
    Function.update (p.withRange x s e).size x (p.size x) = p.size := by
  funext i
  by_cases hi : i = x
  · rw [hi, Function.update_self]
  · rw [Function.update_of_ne hi, size_withRange_of_ne hi]

/-- What `chain_entry_to_free_list` does to the order of the lists. -/
theorem Shape.refiled {old : Option ℕ} {L' : List ℕ} {B' : ℕ → List ℕ} (h : Shape m L B key)
    (hx : x ∈ L) (hold : key x = old.map sizeToPageOrder) (he : m.rechain x old = .ok m')
    (h' : Shape m' L' B' key') : Refiled m.pool.size (old.getD (m.pool.size x)) x B B' := by
  obtain ⟨⟨pool, freeList⟩, hc, he⟩ := Exec.bind_eq_ok.mp he
  cases he
  exact chainEntryToFreeList_order h.lists ⟨h.chain.lt hx, h.chain.id x hx⟩
    (fun j => by rw [h.listed, hold]; simp [hx]) hc h'.lists

/-- What `unchain_entry_from_free_list` does to the order of the lists. -/
theorem Shape.unfiled {f : Option ℕ} {L' : List ℕ} {B' : ℕ → List ℕ} (h : Shape m L B key)
    (hx : x ∈ L) (hkx : key x = some (sizeToPageOrder (m.pool.size x)))
    (he : MemoryAllocator.deleteEntry { m with firstEntry := f } x = .ok m')
    (h' : Shape m' L' B' key') (j : ℕ) : B' j = (B j).filter (· ≠ x) := by
  obtain ⟨⟨pool, freeList⟩, hc, he⟩ := Exec.bind_eq_ok.mp he
  cases he
  have hlisted : ∀ j, x ∈ B j ↔ j = sizeToPageOrder (m.pool.size x) := fun j => by
    rw [h.listed, hkx]
    simp [hx, eq_comm]
  obtain ⟨-, B'', hB'', -⟩ := unchainEntryFromFreeList_spec h.lists hlisted hc
  rw [h'.lists.eq (hB''.delete x)]
  exact unchainEntryFromFreeList_order h.lists hlisted hc hB'' j

/-- Rechaining the one entry whose list is out of date. -/
theorem Shape.rechain_last {old : Option ℕ} (h : Shape m L B key) (hx : x ∈ L)
    (hold : key x = old.map sizeToPageOrder) (hkey : ∀ i ∈ L, i ≠ x → key i = orderOf m i)
    (he : m.rechain x old = .ok m') :
    SameButLists m m' ∧ ∃ B', Shape m' L B' (orderOf m') := by
  obtain ⟨hsame, B', hs⟩ := h.rechain hx hold he
  refine ⟨hsame, B', hs.congr_key fun i hi => ?_⟩
  obtain ⟨lp, ln, fl, rfl⟩ := hsame
  by_cases hix : i = x
  · subst hix
    rw [Function.update_self]
    rfl
  · rw [Function.update_of_ne hix, hkey i hi hix]
    rfl

/-- Rechaining an entry with its old size and then a new one. -/
theorem Shape.rechain_two {m₂ : MemoryAllocator} {old : ℕ} (h : Shape m L B key) (hx : x ∈ L)
    (hy : y ∈ L) (hxy : x ≠ y) (hkx : key x = some (sizeToPageOrder old)) (hky : key y = none)
    (hkey : ∀ i ∈ L, i ≠ x → i ≠ y → key i = orderOf m i)
    (h₁ : m.rechain x (some old) = .ok m₁) (h₂ : m₁.rechain y none = .ok m₂) :
    SameButLists m m₂ ∧ ∃ B', Shape m₂ L B' (orderOf m₂) := by
  obtain ⟨⟨lp, ln, fl, rfl⟩, B₁, hs₁⟩ := h.rechain hx (by rw [hkx]; rfl) h₁
  have hrest : ∀ i ∈ L, i ≠ y →
      Function.update key x (some (sizeToPageOrder (m.pool.size x))) i = orderOf m i := by
    intro i hi hiy
    by_cases hix : i = x
    · subst hix
      rw [Function.update_self]
      rfl
    · rw [Function.update_of_ne hix, hkey i hi hix hiy]
  obtain ⟨⟨lp', ln', fl', rfl⟩, hs₂⟩ := hs₁.rechain_last hy
    (by rw [Function.update_of_ne (Ne.symm hxy), hky]; rfl) hrest h₂
  exact ⟨⟨lp', ln', fl', rfl⟩, hs₂⟩

/-- The order of the lists then. -/
theorem Shape.refiled_two {m₂ : MemoryAllocator} {old : ℕ} {L' : List ℕ} {B' : ℕ → List ℕ}
    (h : Shape m L B key) (hx : x ∈ L) (hy : y ∈ L) (hxy : x ≠ y)
    (hkx : key x = some (sizeToPageOrder old)) (hky : key y = none)
    (h₁ : m.rechain x (some old) = .ok m₁) (h₂ : m₁.rechain y none = .ok m₂)
    (h' : Shape m₂ L' B' key') (hs : SizeSorted (Function.update m.pool.size x old) B) :
    SizeSorted m.pool.size B' := by
  obtain ⟨⟨lp, ln, fl, rfl⟩, B₁, hs₁⟩ := h.rechain hx (by rw [hkx]; rfl) h₁
  have hfirst := (h.refiled hx (by rw [hkx]; rfl) h₁ hs₁).sorted hs
  refine (hs₁.refiled hy (by rw [Function.update_of_ne (Ne.symm hxy), hky]; rfl) h₂ h').sorted ?_
  rw [Option.getD_none, Function.update_eq_self]
  exact hfirst

/-! ## Using a range -/

/-- The state and the result after a range was taken from the free memory : an error leaves
everything as it was. -/
def UsedRange (m : MemoryAllocator) (L : List ℕ) (D : Set ℕ) (r : MemoryResult Unit)
    (m' : MemoryAllocator) : Prop :=
  match r with
  | .error _ => m' = m
  | .ok () => ∃ L' B', Inv m' L' B' ∧
    covered (L'.map m'.pool.range) = covered (L.map m.pool.range) \ D

theorem useSize_eq_ok (h : m.useSize size = .ok (r, m')) :
    r = .ok () ∧ m' = { m with freeSize := m.freeSize - size } := by
  obtain ⟨freeSize, hf, h⟩ := Exec.bind_eq_ok.mp h
  cases h
  rw [(checkedSub_eq_ok.mp hf).2]
  exact ⟨rfl, rfl⟩

/-- One entry shrinks to `(s, e)`, at either end. -/
theorem Inv.shrink (h : Inv m (A ++ x :: C) B)
    (hin : m.pool.startAddress x ≤ s ∧ s ≤ e ∧ e ≤ m.pool.endAddress x)
    (hsize : e - s + 1 + size = m.pool.size x) {D : Set ℕ}
    (hD : ∀ b ∈ D, m.pool.startAddress x ≤ b ∧ b ≤ m.pool.endAddress x)
    (hcut : ∀ b, (s ≤ b ∧ b ≤ e) ↔ (m.pool.startAddress x ≤ b ∧ b ≤ m.pool.endAddress x) ∧ b ∉ D)
    (hr : MemoryAllocator.rechain { m with pool := m.pool.withRange x s e } x
      (some (m.pool.size x)) = .ok m₁)
    (hu : m₁.useSize size = .ok (r, m')) : UsedRange m (A ++ x :: C) D r m' := by
  have hd := h.shape.chain.nodup
  obtain ⟨⟨lp, ln, fl, rfl⟩, B', hs⟩ := (h.shape.withRange x s e).rechain_last (by simp)
    rfl (fun i _ hi => (orderOf_eq (range_withRange_of_ne hi)).symm) hr
  obtain ⟨rfl, rfl⟩ := useSize_eq_ok hu
  have hmap := MemoryEntryPool.map_withRange (p := m.pool) hd s e
  have hsep := h.separated
  have htot := h.counted
  simp only [List.map_append, List.map_cons] at hsep htot
  have hsorted := ((h.shape.withRange x s e).refiled (by simp) rfl hr hs).sorted
  rw [Option.getD_some, update_size_withRange] at hsorted
  refine ⟨A ++ x :: C, B', ⟨hs.withFreeSize _, hsorted h.sorted, ?_, ?_, by simp⟩, ?_⟩
  · refine hmap ▸ ?_
    have hrep := Separated.replace (Y := [(s, e)]) (X := [m.pool.range x]) (by simpa using hsep)
      ⟨by simp [hin.2.1], by simp⟩ ?_ ?_
    · simpa using hrep
    · intro r hr t ht
      rw [List.mem_singleton.mp ht]
      have := (separated_append.mp hsep).2.2 r hr (m.pool.range x) (by simp)
      simp only [MemoryEntryPool.range] at this ⊢
      omega
    · intro r hr t ht
      rw [List.mem_singleton.mp hr]
      have := (separated_cons.mp (separated_append.mp hsep).2.1).2.2 t ht
      simp only [MemoryEntryPool.range] at this ⊢
      omega
  · refine (congrArg total hmap).trans_le ?_
    simp only [total_append, total_cons, MemoryEntryPool.range, MemoryEntryPool.size] at htot hsize ⊢
    omega
  · refine (congrArg covered hmap).trans ?_
    have := hsep.covered_diff (Y := [(s, e)]) hD (fun b => by
      simpa [MemoryEntryPool.range] using hcut b)
    simpa [MemoryEntryPool.range] using this

/-- The entry is used up, and it is not the only one. -/
theorem Inv.useWhole (h : Inv m (A ++ x :: C) B) (hne : A ++ C ≠ []) {f : Option ℕ}
    (hf : f = (A ++ C).head?) (hsize : size = m.pool.size x)
    (hdel : MemoryAllocator.deleteEntry { m with firstEntry := f } x = .ok m₁)
    (hu : m₁.useSize size = .ok (r, m')) :
    UsedRange m (A ++ x :: C) (Set.Icc (m.pool.startAddress x) (m.pool.endAddress x)) r m' := by
  obtain ⟨hfs, hrange, B', hs⟩ := h.shape.deleteEntry rfl hf hdel
  obtain ⟨rfl, rfl⟩ := useSize_eq_ok hu
  have hsep := h.separated
  have htot := h.counted
  simp only [List.map_append, List.map_cons] at hsep htot
  have hunfiled := h.shape.unfiled (by simp) rfl hdel hs
  refine ⟨A ++ C, B', ⟨?_, ?_, ?_, ?_, fun hc => absurd hc hne⟩, ?_⟩
  · exact (hs.congr_key fun i _ => orderOf_eq (congrFun hrange i)).withFreeSize _
  · refine (h.sorted.sublist fun j => ?_).congr fun j i _ => (size_eq (congrFun hrange i)).symm
    exact hunfiled j ▸ List.filter_sublist
  · simp only [hrange, List.map_append]
    have hrep := Separated.replace (Y := []) (X := [m.pool.range x]) (by simpa using hsep)
      ⟨by simp, by simp⟩ (by simp) (by simp)
    simpa using hrep
  · simp only [hrange, hfs, List.map_append, total_append]
    simp only [total_append, total_cons, MemoryEntryPool.range, MemoryEntryPool.size] at htot hsize
    omega
  · simp only [hrange]
    have := hsep.covered_diff (Y := [])
      (D := Set.Icc (m.pool.startAddress x) (m.pool.endAddress x)) (fun b hb => hb)
      (fun b => by simp [MemoryEntryPool.range])
    simpa using this

/-- The links `define_used_memory` writes for the second half of an entry. -/
theorem AddressChain.chainNewEntry {p q : MemoryEntryPool} {first : Option ℕ}
    (h : AddressChain p first (A ++ x :: C)) (hy : p.enabled y = false)
    (hn : q.next = (p.fresh y).next) (hi : q.id = (p.fresh y).id) :
    MemoryAllocator.chainNewEntry q x y = q.chained y (some x) C.head? := by
  have hyL := h.not_mem hy
  have hxy : x ≠ y := fun hc => hyL (by simp [hc])
  have hid : ∀ i ∈ A ++ x :: C, q.id i = i := by
    intro i hiL
    have hiy : i ≠ y := fun hc => hyL (hc ▸ hiL)
    simp [hi, MemoryEntryPool.fresh, Function.update_of_ne hiy, h.id i hiL]
  have hidy : q.id y = y := by simp [hi, MemoryEntryPool.fresh]
  have hnext : q.getNextEntry x = C.head? := by
    rw [← h.getNextEntry, MemoryEntryPool.getNextEntry, MemoryEntryPool.getNextEntry, hn]
    simp [MemoryEntryPool.fresh, Function.update_of_ne hxy]
  unfold MemoryAllocator.chainNewEntry
  rw [hnext]
  cases C with
  | nil =>
    refine MemoryEntryPool.chainAfterMe_last (hid x (by simp)) hidy ?_ hxy
    simp [hn, MemoryEntryPool.fresh]
  | cons c C =>
    exact MemoryEntryPool.chainAfterMe_between (hid x (by simp)) hidy (hid c (by simp)) hxy

/-- The range is inside the entry, with free bytes on both sides. -/
theorem Inv.splitEntry (h : Inv m (A ++ x :: C) B) (hs : m.pool.startAddress x < start)
    (he : start + size ≤ m.pool.endAddress x) (hz : size ≠ 0)
    (hr : m.splitEntry x start size = .ok (r, m')) :
    UsedRange m (A ++ x :: C) (Set.Ico start (start + size)) r m' := by
  unfold MemoryAllocator.splitEntry at hr
  cases hcreate : m.pool.createMemoryEntry with
  | none =>
    simp only [hcreate, Except.ok.injEq, Prod.mk.injEq] at hr
    obtain ⟨rfl, rfl⟩ := hr
    rfl
  | some new =>
    obtain ⟨y, q⟩ := new
    obtain ⟨hy, hye, rfl⟩ := MemoryEntryPool.createMemoryEntry_eq_some hcreate
    simp only [hcreate] at hr
    simp only [Exec.bind_eq_ok] at hr
    obtain ⟨old, hold, _, hnew, _, hq₁, _, hstop, _, hq₂, m₁, hm₁, m₂, hm₂, hr⟩ := hr
    obtain ⟨rfl, rfl⟩ := useSize_eq_ok hr
    obtain ⟨-, rfl⟩ := checkedAdd_eq_ok.mp hnew
    obtain ⟨-, rfl⟩ := checkedSub_eq_ok.mp hstop
    obtain ⟨hlt₁, rfl⟩ := MemoryEntryPool.setRange_eq_ok hq₁
    obtain ⟨hlt₂, rfl⟩ := MemoryEntryPool.setRange_eq_ok hq₂
    have hyL := h.shape.chain.not_mem hye
    have hxy : x ≠ y := fun hc => hyL (by simp [hc])
    have hx₀ : (m.pool.fresh y).startAddress x = m.pool.startAddress x ∧
        (m.pool.fresh y).endAddress x = m.pool.endAddress x := by
      simp [MemoryEntryPool.fresh, Function.update_of_ne hxy]
    have hx₁ : ((m.pool.fresh y).withRange y (start + size)
        (m.pool.endAddress x)).startAddress x = m.pool.startAddress x := by
      simp [MemoryEntryPool.withRange, Function.update_of_ne hxy, hx₀.1]
    rw [hx₀.2] at hlt₁ hlt₂ hm₁
    rw [hx₁] at hlt₂ hm₁
    have hold' : old = m.pool.size x := by
      rw [MemoryEntryPool.getSize_eq_ok hold, MemoryEntryPool.size, hx₀.1, hx₀.2,
        MemoryEntryPool.size]
    rw [h.shape.chain.chainNewEntry (q := ((m.pool.fresh y).withRange y (start + size)
      (m.pool.endAddress x)).withRange x (m.pool.startAddress x) (start - 1)) hye rfl rfl] at hm₁
    -- The new entry is linked after `x`; the ranges come after, which changes nothing.
    have hshape := (Shape.insertEntry (A := A ++ [x]) (C := C) (f := m.firstEntry)
      (by simpa using h.shape) hy hye (by rw [h.shape.chain.head]; simp)).withRange y (start + size)
        (m.pool.endAddress x) |>.withRange x (m.pool.startAddress x) (start - 1)
    rw [List.getLast?_concat] at hshape
    have hL : A ++ [x] ++ y :: C = A ++ x :: y :: C := by simp
    rw [hL] at hshape
    have hother : ∀ i, i ≠ x → i ≠ y → (((m.pool.fresh y).withRange y (start + size)
        (m.pool.endAddress x)).withRange x (m.pool.startAddress x) (start - 1)).range i =
          m.pool.range i := fun i hix hiy => by
      rw [range_withRange_of_ne hix, range_withRange_of_ne hiy, range_fresh_of_ne hiy]
    obtain ⟨⟨lp, ln, fl, rfl⟩, B', hs'⟩ := hshape.rechain_two (by simp) (by simp) hxy
      (by rw [Function.update_of_ne hxy, hold']; rfl) (Function.update_self ..)
      (fun i _ hix hiy => by
        rw [Function.update_of_ne hiy]
        exact (orderOf_eq (hother i hix hiy)).symm) hm₁ hm₂
    have hmap : (A ++ x :: y :: C).map (((m.pool.fresh y).withRange y (start + size)
        (m.pool.endAddress x)).withRange x (m.pool.startAddress x) (start - 1)).range =
        A.map m.pool.range ++ [(m.pool.startAddress x, start - 1),
          (start + size, m.pool.endAddress x)] ++ C.map m.pool.range := by
      have hd := h.shape.chain.nodup
      have hx := (List.nodup_cons.mp (List.nodup_middle.mp hd)).1
      have hAC : ∀ i ∈ A ++ C, (((m.pool.fresh y).withRange y (start + size)
          (m.pool.endAddress x)).withRange x (m.pool.startAddress x) (start - 1)).range i =
            m.pool.range i := fun i hi =>
        hother i (fun hc => hx (hc ▸ hi)) fun hc => hyL (by
          rw [← hc]
          simp only [List.mem_append, List.mem_cons] at hi ⊢
          tauto)
      simp only [List.map_append, List.map_cons]
      rw [List.map_congr_left fun i hi => hAC i (by simp [hi]),
        List.map_congr_left fun i hi => hAC i (List.mem_append_right A hi)]
      simp [MemoryEntryPool.range, MemoryEntryPool.withRange, Function.update_of_ne (Ne.symm hxy)]
    have hsep := h.separated
    have htot := h.counted
    simp only [List.map_append, List.map_cons] at hsep htot
    have hfiled : ∀ k, ∀ i ∈ B k, m.pool.size i = Function.update (((m.pool.fresh y).withRange y
        (start + size) (m.pool.endAddress x)).withRange x (m.pool.startAddress x) (start - 1)).size
          x old i := by
      intro k i hi
      have hiy : i ≠ y := fun hc => hyL (hc ▸ ((h.shape.listed i k).mp hi).1)
      by_cases hix : i = x
      · rw [hix, Function.update_self, hold']
      · rw [Function.update_of_ne hix, size_eq (hother i hix hiy)]
    have hsorted := hshape.refiled_two (by simp) (by simp) hxy
      (by rw [Function.update_of_ne hxy, hold']; rfl) (Function.update_self ..) hm₁ hm₂ hs'
      (h.sorted.congr hfiled)
    refine ⟨A ++ x :: y :: C, B', ⟨hs'.withFreeSize _, hsorted, ?_, ?_, by simp⟩, ?_⟩
    · refine hmap ▸ ?_
      refine Separated.replace (X := [m.pool.range x]) (by simpa using hsep) ?_ ?_ ?_
      · simp only [separated_cons, List.forall_mem_cons]
        simp only [List.not_mem_nil, false_imp_iff, implies_true, and_true]
        exact ⟨by omega, ⟨by omega, ⟨by simp, by simp⟩⟩, by omega⟩
      · intro r hr t ht
        have := (separated_append.mp hsep).2.2 r hr (m.pool.range x) (by simp)
        simp only [MemoryEntryPool.range] at this
        rcases List.mem_pair.mp ht with rfl | rfl <;> simp only <;> omega
      · intro r hr t ht
        have := (separated_cons.mp (separated_append.mp hsep).2.1).2.2 t ht
        simp only [MemoryEntryPool.range] at this
        rcases List.mem_pair.mp hr with rfl | rfl <;> simp only <;> omega
    · refine (congrArg total hmap).trans_le ?_
      simp only [total_append, total_cons, MemoryEntryPool.range] at htot ⊢
      simp only [total, List.map_nil, List.sum_nil] at htot ⊢
      omega
    · refine (congrArg covered hmap).trans ?_
      have := hsep.covered_diff (D := Set.Ico start (start + size))
        (Y := [(m.pool.startAddress x, start - 1), (start + size, m.pool.endAddress x)])
        (fun b hb => ?_) (fun b => ?_)
      · simpa [MemoryEntryPool.range] using this
      · have := Set.mem_Ico.mp hb
        simp only [MemoryEntryPool.range]
        omega
      · simp only [mem_covered_cons, mem_covered_nil, or_false, MemoryEntryPool.range, Set.mem_Ico]
        omega

/-- `define_used_memory` on an entry that contains the range. -/
theorem Inv.useRange (h : Inv m (A ++ x :: C) B) (hs : m.pool.startAddress x ≤ start)
    (he : start + size ≤ m.pool.endAddress x + 1) (hz : size ≠ 0)
    (hr : m.useRange x start size = .ok (r, m')) :
    UsedRange m (A ++ x :: C) (Set.Ico start (start + size)) r m' := by
  have hin : ∀ b ∈ Set.Ico start (start + size),
      m.pool.startAddress x ≤ b ∧ b ≤ m.pool.endAddress x := by
    intro b hb
    have := Set.mem_Ico.mp hb
    omega
  have hsz : m.pool.size x = m.pool.endAddress x - m.pool.startAddress x + 1 := rfl
  unfold MemoryAllocator.useRange at hr
  split_ifs at hr with h1 h2 h3
  · -- From the start of the entry.
    simp only [getEndAddress, Exec.bind_eq_ok] at hr
    obtain ⟨stop, ⟨sum, hsum, hstop⟩, hr⟩ := hr
    obtain ⟨-, rfl⟩ := checkedAdd_eq_ok.mp hsum
    obtain ⟨-, rfl⟩ := checkedSub_eq_ok.mp hstop
    split_ifs at hr with h4
    · have hD : Set.Ico start (start + size) =
          Set.Icc (m.pool.startAddress x) (m.pool.endAddress x) := by
        ext b
        simp only [Set.mem_Ico, Set.mem_Icc]
        omega
      rw [hD]
      unfold MemoryAllocator.useEntry at hr
      rw [h.shape.chain.previous, h.shape.chain.getNextEntry] at hr
      cases hA : A.getLast? with
      | none =>
        obtain rfl := List.getLast?_eq_none_iff.mp hA
        cases C with
        | nil =>
          simp only [List.getLast?_nil, List.head?_nil, Except.ok.injEq, Prod.mk.injEq] at hr
          obtain ⟨rfl, rfl⟩ := hr
          rfl
        | cons c C =>
          simp only [List.getLast?_nil, List.head?_cons, Exec.bind_eq_ok] at hr
          obtain ⟨m₁, hm₁, hr⟩ := hr
          refine h.useWhole (by simp) ?_ (by omega) hm₁ hr
          simp [h.shape.chain.id c (by simp)]
      | some a =>
        simp only [hA, Exec.bind_eq_ok] at hr
        obtain ⟨m₁, hm₁, hr⟩ := hr
        have hne : A ≠ [] := by
          rintro rfl
          simp at hA
        refine h.useWhole (f := m.firstEntry) (by simp [hne]) ?_ (by omega) hm₁ hr
        rw [h.shape.chain.head]
        cases A with
        | nil => exact absurd rfl hne
        | cons a A => simp
    · simp only [Exec.bind_eq_ok, MemoryAllocator.resizeEntry] at hr
      obtain ⟨_, hnew, m₁, ⟨old, hold, _, hq, hm₁⟩, hr⟩ := hr
      obtain ⟨-, rfl⟩ := checkedAdd_eq_ok.mp hnew
      obtain ⟨hlt, rfl⟩ := MemoryEntryPool.setRange_eq_ok hq
      obtain rfl := MemoryEntryPool.getSize_eq_ok hold
      refine h.shrink ⟨by omega, by omega, le_rfl⟩ (by omega) hin (fun b => ?_) hm₁ hr
      simp only [Set.mem_Ico]
      omega
  · cases hr
    rfl
  · -- The last byte.
    rw [not_not] at h3
    subst h3
    simp only [Exec.bind_eq_ok, MemoryAllocator.useLastByte] at hr
    obtain ⟨_, hstop, _, hq, old', hold', old, hold, m₁, hm₁, hr⟩ := hr
    obtain ⟨-, rfl⟩ := checkedSub_eq_ok.mp hstop
    obtain ⟨hlt, rfl⟩ := MemoryEntryPool.setRange_eq_ok hq
    have hsize : old = m.pool.size x := by
      rw [(checkedAdd_eq_ok.mp hold).2, MemoryEntryPool.getSize_eq_ok hold']
      simp only [MemoryEntryPool.size, MemoryEntryPool.withRange, Function.update_self]
      omega
    subst hsize
    refine h.shrink ⟨le_rfl, by omega, by omega⟩ (by omega) hin (fun b => ?_) hm₁ hr
    simp only [Set.mem_Ico]
    omega
  · simp only [getEndAddress, Exec.bind_eq_ok] at hr
    obtain ⟨stop, ⟨sum, hsum, hstop⟩, hr⟩ := hr
    obtain ⟨-, rfl⟩ := checkedAdd_eq_ok.mp hsum
    obtain ⟨-, rfl⟩ := checkedSub_eq_ok.mp hstop
    split_ifs at hr with h4
    · -- Up to the end of the entry.
      simp only [Exec.bind_eq_ok, MemoryAllocator.resizeEntry] at hr
      obtain ⟨_, hnew, m₁, ⟨old, hold, _, hq, hm₁⟩, hr⟩ := hr
      obtain ⟨-, rfl⟩ := checkedSub_eq_ok.mp hnew
      obtain ⟨hlt, rfl⟩ := MemoryEntryPool.setRange_eq_ok hq
      obtain rfl := MemoryEntryPool.getSize_eq_ok hold
      refine h.shrink ⟨le_rfl, by omega, by omega⟩ (by omega) hin (fun b => ?_) hm₁ hr
      simp only [Set.mem_Ico]
      omega
    · exact h.splitEntry (by omega) (by omega) hz hr

/-- A range that was used lies inside its entry : the assertion of `set_range` stops any other. -/
theorem Inv.le_of_useRange (h : Inv m (A ++ x :: C) B)
    (hr : m.useRange x start size = .ok (.ok (), m')) :
    start + size ≤ m.pool.endAddress x + 1 := by
  unfold MemoryAllocator.useRange at hr
  split_ifs at hr with h1 h2 h3
  · simp only [getEndAddress, Exec.bind_eq_ok] at hr
    obtain ⟨stop, ⟨sum, hsum, hstop⟩, hr⟩ := hr
    obtain ⟨-, rfl⟩ := checkedAdd_eq_ok.mp hsum
    obtain ⟨-, rfl⟩ := checkedSub_eq_ok.mp hstop
    split_ifs at hr with h4
    · omega
    · simp only [Exec.bind_eq_ok, MemoryAllocator.resizeEntry] at hr
      obtain ⟨_, hnew, m₁, ⟨old, hold, _, hq, hm₁⟩, hr⟩ := hr
      obtain ⟨-, rfl⟩ := checkedAdd_eq_ok.mp hnew
      obtain ⟨hlt, -⟩ := MemoryEntryPool.setRange_eq_ok hq
      omega
  · cases hr
  · omega
  · simp only [getEndAddress, Exec.bind_eq_ok] at hr
    obtain ⟨stop, ⟨sum, hsum, hstop⟩, hr⟩ := hr
    obtain ⟨-, rfl⟩ := checkedAdd_eq_ok.mp hsum
    obtain ⟨-, rfl⟩ := checkedSub_eq_ok.mp hstop
    split_ifs at hr with h4
    · omega
    · unfold MemoryAllocator.splitEntry at hr
      cases hcreate : m.pool.createMemoryEntry with
      | none =>
        rw [hcreate] at hr
        cases hr
      | some new =>
        obtain ⟨y, q⟩ := new
        obtain ⟨hy, hye, rfl⟩ := MemoryEntryPool.createMemoryEntry_eq_some hcreate
        simp only [hcreate] at hr
        simp only [Exec.bind_eq_ok] at hr
        obtain ⟨old, hold, _, hnew, _, hq, -⟩ := hr
        obtain ⟨-, rfl⟩ := checkedAdd_eq_ok.mp hnew
        obtain ⟨hlt, -⟩ := MemoryEntryPool.setRange_eq_ok hq
        have hxy : x ≠ y := fun hc => h.shape.chain.not_mem hye (by simp [hc])
        simp only [MemoryEntryPool.fresh, Function.update_of_ne hxy] at hlt
        omega

/-! ## Freeing a range -/

/-- The state and the result after a range was added to the free memory. -/
def FreedRange (m : MemoryAllocator) (L : List ℕ) (D : Set ℕ) (r : MemoryResult Unit)
    (m' : MemoryAllocator) : Prop :=
  match r with
  | .error _ => m' = m
  | .ok () => ∃ L' B', Inv m' L' B' ∧
    covered (L'.map m'.pool.range) = covered (L.map m.pool.range) ∪ D

/-- All that the cases have in common : the ranges `X` have become the ranges `Y`. -/
theorem Inv.grown {L' : List ℕ} {B' : ℕ → List ℕ} {U V X Y : List (ℕ × ℕ)} {D : Set ℕ}
    (h : Inv m L B) (hs : Shape m' L' B' (orderOf m')) (hsorted : SizeSorted m'.pool.size B')
    (hfs : m'.freeSize = m.freeSize + size)
    (hL : L.map m.pool.range = U ++ X ++ V) (hL' : L'.map m'.pool.range = U ++ Y ++ V)
    (hY : Separated Y) (hA : ∀ r ∈ U, ∀ s ∈ Y, r.2 + 1 < s.1)
    (hC : ∀ r ∈ Y, ∀ s ∈ V, r.2 + 1 < s.1) (htot : total Y ≤ total X + size)
    (hcov : ∀ b, b ∈ covered Y ↔ b ∈ covered X ∨ b ∈ D) (hne : L' ≠ []) :
    FreedRange m L D (.ok ()) m' := by
  have hsep := h.separated
  have hcount := h.counted
  rw [hL] at hsep hcount
  refine ⟨L', B', ⟨hs, hsorted, ?_, ?_, fun hc => absurd hc hne⟩, ?_⟩
  · rw [hL']
    exact hsep.replace hY hA hC
  · rw [hL', hfs]
    simp only [total_append] at hcount ⊢
    omega
  · rw [hL, hL']
    exact covered_union hcov

/-- The end of `define_free_memory` for an entry that has grown. -/
theorem Shape.finishExtended (h : Shape m L B key) (old : ℕ) (hx : x ∈ L)
    (hkx : key x = some (sizeToPageOrder old)) (hkey : ∀ i ∈ L, i ≠ x → key i = orderOf m i)
    (hr : m.finishExtended x old size = .ok (r, m')) :
    r = .ok () ∧ m'.freeSize = m.freeSize + size ∧ m'.pool.range = m.pool.range ∧
      ∃ B', Shape m' L B' (orderOf m') := by
  simp only [MemoryAllocator.finishExtended, Exec.bind_eq_ok] at hr
  obtain ⟨_, hf, m₁, hm₁, hr⟩ := hr
  cases hr
  obtain ⟨-, rfl⟩ := checkedAdd_eq_ok.mp hf
  obtain ⟨⟨lp, ln, fl, rfl⟩, hs⟩ := (h.withFreeSize (m.freeSize + size)).rechain_last
    (show _ ∈ L from hx) (hkx.trans (Option.map_some ..).symm) hkey hm₁
  exact ⟨rfl, rfl, rfl, hs⟩

/-- The order of the lists then. -/
theorem Shape.refiled_finish {L' : List ℕ} {B' : ℕ → List ℕ} (h : Shape m L B key) (old : ℕ)
    (hx : x ∈ L) (hkx : key x = some (sizeToPageOrder old))
    (hr : m.finishExtended x old size = .ok (r, m')) (h' : Shape m' L' B' key') :
    Refiled m.pool.size old x B B' := by
  simp only [MemoryAllocator.finishExtended, Exec.bind_eq_ok] at hr
  obtain ⟨freeSize, -, m₁, hm₁, hr⟩ := hr
  cases hr
  have hold : key x = (some old).map sizeToPageOrder := hkx
  exact (h.withFreeSize freeSize).refiled hx hold hm₁ h'

/-- A new entry for the range, between `A` and `C`. -/
theorem Inv.inserted {next : Option ℕ} (h : Inv m (A ++ C) B) (hx : x ∈ A ++ C)
    (hlink : ∀ y, y < poolSize → m.pool.enabled y = false →
      MemoryAllocator.linkNewEntry { m with pool := (m.pool.fresh y).withRange y s e } x y next =
        .ok { m with
          firstEntry := (A ++ y :: C).head?
          pool := ((m.pool.fresh y).withRange y s e).chained y A.getLast? C.head? })
    (hr : m.insertEntry x (m.pool.size x) s e size next = .ok (r, m')) :
    (r = .error .noEntry ∧ m' = m ∧ m.pool.createMemoryEntry = none) ∨
      r = .ok () ∧ s < e ∧ m'.freeSize = m.freeSize + size ∧ ∃ y B', Shape m' (A ++ y :: C) B'
        (orderOf m') ∧
        SizeSorted m'.pool.size B' ∧ (A ++ y :: C).map m'.pool.range =
          A.map m.pool.range ++ [(s, e)] ++ C.map m.pool.range := by
  unfold MemoryAllocator.insertEntry at hr
  cases hcreate : m.pool.createMemoryEntry with
  | none =>
    simp only [hcreate, Except.ok.injEq, Prod.mk.injEq] at hr
    obtain ⟨rfl, rfl⟩ := hr
    exact .inl ⟨rfl, rfl, rfl⟩
  | some new =>
    obtain ⟨y, q⟩ := new
    obtain ⟨hy, hye, rfl⟩ := MemoryEntryPool.createMemoryEntry_eq_some hcreate
    simp only [hcreate, Exec.bind_eq_ok] at hr
    obtain ⟨_, hq, m₁, hm₁, _, hf, m₂, hm₂, m₃, hm₃, hr⟩ := hr
    cases hr
    obtain ⟨hlt, rfl⟩ := MemoryEntryPool.setRange_eq_ok hq
    obtain ⟨-, rfl⟩ := checkedAdd_eq_ok.mp hf
    obtain rfl := Except.ok.inj ((hlink y hy hye).symm.trans hm₁)
    have hyL := h.shape.chain.not_mem hye
    have hxy : x ≠ y := fun hc => hyL (hc ▸ hx)
    have hother : ∀ i, i ≠ y → ((m.pool.fresh y).withRange y s e).range i = m.pool.range i :=
      fun i hi => by rw [range_withRange_of_ne hi, range_fresh_of_ne hi]
    have hshape := ((h.shape.insertEntry hy hye rfl).withRange y s e).withFreeSize
      (m.freeSize + size)
    have hmem : ∀ {i}, i ∈ A ++ C → i ∈ A ++ y :: C := by
      intro i hi
      simp only [List.mem_append, List.mem_cons] at hi ⊢
      tauto
    obtain ⟨⟨lp, ln, fl, rfl⟩, B', hs'⟩ := hshape.rechain_two (hmem hx) (by simp) hxy
      (by rw [Function.update_of_ne hxy]; rfl) (Function.update_self ..)
      (fun i _ _ hiy => by
        rw [Function.update_of_ne hiy]
        exact (orderOf_eq (hother i hiy)).symm) hm₂ hm₃
    have hmap : (A ++ y :: C).map ((m.pool.fresh y).withRange y s e).range =
        A.map m.pool.range ++ [(s, e)] ++ C.map m.pool.range := by
      have hne : ∀ i ∈ A ++ C, i ≠ y := fun i hi hc => hyL (hc ▸ hi)
      simp only [List.map_append, List.map_cons]
      rw [List.map_congr_left fun i hi => hother i (hne i (by simp [hi])),
        List.map_congr_left fun i hi => hother i (hne i (List.mem_append_right A hi))]
      simp [MemoryEntryPool.range, MemoryEntryPool.withRange]
    have hfiled : ∀ k, ∀ i ∈ B k, m.pool.size i = Function.update
        ((m.pool.fresh y).withRange y s e).size x (m.pool.size x) i := by
      intro k i hi
      have hiy : i ≠ y := fun hc => hyL (hc ▸ ((h.shape.listed i k).mp hi).1)
      by_cases hix : i = x
      · rw [hix, Function.update_self]
      · rw [Function.update_of_ne hix, size_eq (hother i hiy)]
    have hsorted := hshape.refiled_two (hmem hx) (by simp) hxy
      (by rw [Function.update_of_ne hxy]; rfl) (Function.update_self ..) hm₂ hm₃ hs'
      (h.sorted.congr hfiled)
    exact .inr ⟨rfl, hlt, rfl, y, B', hs', hsorted, hmap⟩

/-- The new entry of `define_free_memory`, between `A` and `C`. -/
theorem Inv.insertEntry {next : Option ℕ} (h : Inv m (A ++ C) B) (hx : x ∈ A ++ C)
    (hlink : ∀ y, y < poolSize → m.pool.enabled y = false →
      MemoryAllocator.linkNewEntry { m with pool := (m.pool.fresh y).withRange y s e } x y next =
        .ok { m with
          firstEntry := (A ++ y :: C).head?
          pool := ((m.pool.fresh y).withRange y s e).chained y A.getLast? C.head? })
    (hA : ∀ i ∈ A, m.pool.endAddress i + 1 < s) (hC : ∀ i ∈ C, e + 1 < m.pool.startAddress i)
    (hse : e + 1 = s + size) (hr : m.insertEntry x (m.pool.size x) s e size next = .ok (r, m')) :
    FreedRange m (A ++ C) (Set.Ico s (s + size)) r m' := by
  obtain ⟨rfl, rfl, -⟩ | ⟨rfl, hlt, hfs, y, B', hs', hsorted, hmap⟩ := h.inserted hx hlink hr
  · rfl
  · refine h.grown (X := []) (Y := [(s, e)]) hs' hsorted hfs (by simp) hmap ⟨by simp [hlt.le], by simp⟩
      ?_ ?_ ?_ (fun b => ?_) (by simp)
    · intro r hr t ht
      obtain ⟨i, hi, rfl⟩ := List.mem_map.mp hr
      rw [List.mem_singleton.mp ht]
      exact hA i hi
    · intro r hr t ht
      obtain ⟨i, hi, rfl⟩ := List.mem_map.mp ht
      rw [List.mem_singleton.mp hr]
      exact hC i hi
    · simp only [total, List.map_cons, List.map_nil, List.sum_cons, List.sum_nil]
      omega
    · simp only [mem_covered_cons, mem_covered_nil, or_false, false_or, Set.mem_Ico]
      omega

/-- The links of a new entry after `x`. -/
theorem AddressChain.linkNewEntry_after (h : AddressChain m.pool m.firstEntry (A ++ x :: C))
    (hy : m.pool.enabled y = false) (hs : C ≠ [] → m.pool.startAddress x ≤ e)
    (he : C = [] → m.pool.endAddress x < s) :
    MemoryAllocator.linkNewEntry { m with pool := (m.pool.fresh y).withRange y s e } x y C.head? =
      .ok { m with pool := ((m.pool.fresh y).withRange y s e).chained y (some x) C.head? } := by
  have hyL := h.not_mem hy
  have hxy : x ≠ y := fun hc => hyL (by simp [hc])
  have hid : ∀ i ∈ A ++ x :: C, ((m.pool.fresh y).withRange y s e).id i = i := by
    intro i hi
    have hiy : i ≠ y := fun hc => hyL (hc ▸ hi)
    simp [MemoryEntryPool.withRange, MemoryEntryPool.fresh, Function.update_of_ne hiy, h.id i hi]
  have hidy : ((m.pool.fresh y).withRange y s e).id y = y := by
    simp [MemoryEntryPool.withRange, MemoryEntryPool.fresh]
  have hx₀ : ((m.pool.fresh y).withRange y s e).startAddress x = m.pool.startAddress x ∧
      ((m.pool.fresh y).withRange y s e).endAddress x = m.pool.endAddress x := by
    simp [MemoryEntryPool.withRange, MemoryEntryPool.fresh, Function.update_of_ne hxy]
  have hy₀ : ((m.pool.fresh y).withRange y s e).startAddress y = s ∧
      ((m.pool.fresh y).withRange y s e).endAddress y = e := by
    simp [MemoryEntryPool.withRange]
  cases C with
  | nil =>
    simp only [List.head?_nil, MemoryAllocator.linkNewEntry, hx₀, hy₀, he rfl, if_true,
      Exec.pure_eq_ok]
    rw [MemoryEntryPool.chainAfterMe_last (hid x (by simp)) hidy _ hxy]
    simp [MemoryEntryPool.withRange, MemoryEntryPool.fresh]
  | cons c C =>
    simp only [List.head?_cons, MemoryAllocator.linkNewEntry, hx₀, hy₀,
      not_lt.mpr (hs (List.cons_ne_nil c C)), if_false, Exec.pure_eq_ok]
    rw [MemoryEntryPool.setLinks_between (hid x (by simp)) hidy (hid c (by simp)) hxy]

/-- The links of a new entry before the first one. -/
theorem AddressChain.linkNewEntry_before (h : AddressChain m.pool m.firstEntry (x :: C))
    (hy : m.pool.enabled y = false) (hs : C ≠ [] → e < m.pool.startAddress x)
    (he : C = [] → s ≤ m.pool.endAddress x) :
    MemoryAllocator.linkNewEntry { m with pool := (m.pool.fresh y).withRange y s e } x y C.head? =
      .ok { m with
        firstEntry := some y
        pool := ((m.pool.fresh y).withRange y s e).chained y none (some x) } := by
  have hyL := h.not_mem hy
  have hxy : x ≠ y := fun hc => hyL (by simp [hc])
  have hidx : ((m.pool.fresh y).withRange y s e).id x = x := by
    simp [MemoryEntryPool.withRange, MemoryEntryPool.fresh, Function.update_of_ne hxy,
      h.id x (by simp)]
  have hidy : ((m.pool.fresh y).withRange y s e).id y = y := by
    simp [MemoryEntryPool.withRange, MemoryEntryPool.fresh]
  have hx₀ : ((m.pool.fresh y).withRange y s e).startAddress x = m.pool.startAddress x ∧
      ((m.pool.fresh y).withRange y s e).endAddress x = m.pool.endAddress x := by
    simp [MemoryEntryPool.withRange, MemoryEntryPool.fresh, Function.update_of_ne hxy]
  have hy₀ : ((m.pool.fresh y).withRange y s e).startAddress y = s ∧
      ((m.pool.fresh y).withRange y s e).endAddress y = e := by
    simp [MemoryEntryPool.withRange]
  have hprev : ((m.pool.fresh y).withRange y s e).getPrevEntry x = none := by
    have := h.previous (A := [])
    simp [MemoryEntryPool.getPrevEntry, MemoryEntryPool.withRange, MemoryEntryPool.fresh,
      Function.update_of_ne hxy, this]
  have hlink : ∀ limit, MemoryAllocator.linkBefore
      { m with pool := (m.pool.fresh y).withRange y s e } x y limit = .ok { m with
        firstEntry := some y
        pool := ((m.pool.fresh y).withRange y s e).chained y none (some x) } := by
    intro limit
    simp only [MemoryAllocator.linkBefore, hprev, Exec.pure_eq_ok, hidy]
    rw [MemoryEntryPool.chainAfterMe_first hidx hidy _ hxy]
    simp [MemoryEntryPool.withRange, MemoryEntryPool.fresh]
  cases C with
  | nil =>
    simp only [List.head?_nil, MemoryAllocator.linkNewEntry, hx₀, hy₀, not_lt.mpr (he rfl), if_false]
    exact hlink x
  | cons c C =>
    simp only [List.head?_cons, MemoryAllocator.linkNewEntry, hx₀, hy₀, hs (List.cons_ne_nil c C), if_true]
    exact hlink y

section FreeBeside

variable {again : MemoryAllocator → ℕ → ℕ → Exec (MemoryResult Unit × MemoryAllocator)}
  {after old stop : ℕ} {processed : Bool} {next : Option ℕ}

/-- The next entry does not touch the range or the entry : only the entry itself counts. -/
theorem freeWithNext_apart
    (hn : ∀ c, next = some c → start < m.pool.startAddress c ∧ m.pool.startAddress c ≠ stop + 1 ∧
      m.pool.startAddress c ≠ m.pool.endAddress x + 1 ∧ after < m.pool.startAddress c)
    (hr : m.freeWithNext again x after old start stop size processed next = .ok (r, m')) :
    (if processed then m.finishExtended x old size
      else m.insertEntry x old start stop size next) = .ok (r, m') := by
  cases next with
  | none => exact hr
  | some c =>
    obtain ⟨h1, h2, h3, h4⟩ := hn c rfl
    simp only [MemoryAllocator.freeWithNext, not_le.mpr h1, if_false, Exec.bind_eq_ok,
      MemoryAllocator.extendNext, MemoryAllocator.mergeNext] at hr
    obtain ⟨⟨m₁, b⟩, ⟨_, ha, hext⟩, m₂, ⟨_, ha', hmerge⟩, hr⟩ := hr
    obtain ⟨-, rfl⟩ := checkedAdd_eq_ok.mp ha
    simp only [h2, if_false, Exec.pure_eq_ok, Except.ok.injEq, Prod.mk.injEq] at hext
    obtain ⟨rfl, rfl⟩ := hext
    obtain ⟨-, rfl⟩ := checkedAdd_eq_ok.mp ha'
    have hno : ¬(m.pool.startAddress c = m.pool.endAddress x + 1 ∨
        processed = true ∧ m.pool.startAddress c ≤ after) := by
      rintro (hc | ⟨-, hc⟩)
      · exact h3 hc
      · exact absurd hc (not_le.mpr h4)
    simp only [hno, if_false, Exec.pure_eq_ok, Except.ok.injEq] at hmerge
    subst hmerge
    exact hr

/-- The range touches the next entry, which grows first. -/
theorem freeWithNext_touch {c : ℕ} (hs : start < m.pool.startAddress c)
    (hc : m.pool.startAddress c = stop + 1)
    (hr : m.freeWithNext again x after old start stop size processed (some c) = .ok (r, m')) :
    ∃ m₁ m₂, m.resizeEntry c start (m.pool.endAddress c) = .ok m₁ ∧
      m₁.mergeNext x c after true = .ok m₂ ∧ m₂.finishExtended x old size = .ok (r, m') := by
  simp only [MemoryAllocator.freeWithNext, not_le.mpr hs, if_false, Exec.bind_eq_ok,
    MemoryAllocator.extendNext] at hr
  obtain ⟨⟨m₁, b⟩, ⟨_, ha, hext⟩, m₂, hmerge, hr⟩ := hr
  obtain ⟨-, rfl⟩ := checkedAdd_eq_ok.mp ha
  rw [if_pos hc] at hext
  obtain ⟨m₃, hm₃, hext⟩ := Exec.bind_eq_ok.mp hext
  cases hext
  exact ⟨m₁, m₂, hm₃, hmerge, hr⟩

/-- The entry `x` grows, by itself or not at all. -/
theorem Inv.growEntry (h : Inv m (A ++ x :: C) B) {s e : ℕ} {D : Set ℕ}
    (hse : s ≤ e) (hA : ∀ r ∈ A.map m.pool.range, r.2 + 1 < s)
    (hC : ∀ r ∈ C.map m.pool.range, e + 1 < r.1)
    (htot : e - s + 1 ≤ m.pool.size x + size)
    (hcov : ∀ b, (s ≤ b ∧ b ≤ e) ↔ (m.pool.startAddress x ≤ b ∧ b ≤ m.pool.endAddress x) ∨ b ∈ D)
    (hr : MemoryAllocator.finishExtended { m with pool := m.pool.withRange x s e } x
      (m.pool.size x) size = .ok (r, m')) : FreedRange m (A ++ x :: C) D r m' := by
  obtain ⟨rfl, hfs, hrange, B', hs⟩ := (h.shape.withRange x s e).finishExtended _ (by simp) rfl
    (fun i _ hi => (orderOf_eq (range_withRange_of_ne hi)).symm) hr
  have hsorted := ((h.shape.withRange x s e).refiled_finish _ (by simp) rfl hr hs).sorted
  rw [update_size_withRange] at hsorted
  have hsize : m'.pool.size = (m.pool.withRange x s e).size :=
    funext fun i => size_eq (congrFun hrange i)
  refine h.grown (U := A.map m.pool.range) (V := C.map m.pool.range) (X := [m.pool.range x])
    (Y := [(s, e)]) hs (hsize ▸ hsorted h.sorted) hfs (by simp) ?_ ⟨by simp [hse], by simp⟩
    (fun r hr t ht => ?_) (fun r hr t ht => ?_) ?_ (fun b => ?_) (by simp)
  · rw [hrange]
    simpa using MemoryEntryPool.map_withRange h.shape.chain.nodup s e
  · rw [List.mem_singleton.mp ht]
    exact hA r hr
  · rw [List.mem_singleton.mp hr]
    exact hC t ht
  · simpa [total, MemoryEntryPool.range, MemoryEntryPool.size] using htot
  · simpa [MemoryEntryPool.range] using hcov b

/-- The range touches the next entry `c` and not `x`. -/
theorem Inv.growNext {c : ℕ} {m₂ : MemoryAllocator} (h : Inv m (A ++ x :: c :: C) B)
    (hx : m.pool.endAddress x + 1 < start) (hc : m.pool.startAddress c = start + size)
    (h₁ : m.resizeEntry c start (m.pool.endAddress c) = .ok m₁)
    (h₂ : m₁.mergeNext x c (m.pool.endAddress x + 1) true = .ok m₂)
    (hr : m₂.finishExtended x (m.pool.size x) size = .ok (r, m')) :
    FreedRange m (A ++ x :: c :: C) (Set.Ico start (start + size)) r m' := by
  have hL : A ++ x :: c :: C = A ++ [x] ++ c :: C := by simp
  rw [hL] at h ⊢
  have hd := h.shape.chain.nodup
  have hxc : x ≠ c := by
    have := (List.nodup_append.mp hd).2.2 x (by simp) c (by simp)
    exact this
  simp only [MemoryAllocator.resizeEntry, Exec.bind_eq_ok] at h₁
  obtain ⟨old, hold, _, hq, h₁⟩ := h₁
  obtain rfl := MemoryEntryPool.getSize_eq_ok hold
  obtain ⟨hlt, rfl⟩ := MemoryEntryPool.setRange_eq_ok hq
  obtain ⟨⟨lp, ln, fl, rfl⟩, B₁, hs₁⟩ := (h.shape.withRange c start _).rechain_last (by simp)
    rfl (fun i _ hi => (orderOf_eq (range_withRange_of_ne hi)).symm) h₁
  have hx₀ : (m.pool.withRange c start (m.pool.endAddress c)).range x = m.pool.range x :=
    range_withRange_of_ne hxc
  have hxe : (m.pool.withRange c start (m.pool.endAddress c)).endAddress x = m.pool.endAddress x :=
    congrArg Prod.snd hx₀
  have hcs : (m.pool.withRange c start (m.pool.endAddress c)).startAddress c = start := by
    simp [MemoryEntryPool.withRange]
  simp only [MemoryAllocator.mergeNext, Exec.bind_eq_ok] at h₂
  obtain ⟨_, ha, h₂⟩ := h₂
  obtain ⟨-, rfl⟩ := checkedAdd_eq_ok.mp ha
  simp only [hxe, hcs] at h₂
  rw [if_neg (by omega)] at h₂
  cases h₂
  have hxsize : MemoryEntryPool.size (m.pool.withRange c start (m.pool.endAddress c)) x =
      m.pool.size x := Option.some.inj (by
    have := congrArg (fun r : ℕ × ℕ => some (r.2 - r.1 + 1)) hx₀
    exact this)
  obtain ⟨rfl, hfs, hrange, B', hs⟩ := hs₁.finishExtended (m.pool.size x) (by simp)
    (by rw [← hxsize]; rfl) (fun _ _ _ => rfl) hr
  -- First `c` comes to its place, then `x`, which has its old size.
  have hsorted₁ := ((h.shape.withRange c start _).refiled (by simp) rfl h₁ hs₁).sorted
  rw [Option.getD_some, update_size_withRange] at hsorted₁
  have hsorted : SizeSorted (Function.update (m.pool.withRange c start (m.pool.endAddress c)).size x
      (m.pool.size x)) B₁ → SizeSorted (m.pool.withRange c start (m.pool.endAddress c)).size B' :=
    (hs₁.refiled_finish (m.pool.size x) (by simp) (by rw [← hxsize]; rfl) hr hs).sorted
  rw [← hxsize, Function.update_eq_self] at hsorted
  have hsize : m'.pool.size = (m.pool.withRange c start (m.pool.endAddress c)).size :=
    funext fun i => size_eq (congrFun hrange i)
  have hsep := h.separated
  simp only [List.map_append, List.map_cons] at hsep
  have hle : m.pool.startAddress c ≤ m.pool.endAddress c :=
    (separated_cons.mp (separated_append.mp hsep).2.1).1
  have hbefore : ∀ r ∈ (A ++ [x]).map m.pool.range, r.2 + 1 < start := by
    have hAx := separated_append.mp (separated_append.mp hsep).1
    intro r hr
    rw [List.map_append, List.mem_append] at hr
    have hxx := hAx.2.1.1 (m.pool.range x) (by simp)
    rcases hr with hr | hr
    · have := hAx.2.2 r hr (m.pool.range x) (by simp)
      simp only [MemoryEntryPool.range] at this hxx
      omega
    · rw [List.mem_singleton.mp hr]
      exact hx
  have hmap := MemoryEntryPool.map_withRange (p := m.pool) hd start (m.pool.endAddress c)
  refine h.grown (U := (A ++ [x]).map m.pool.range) (V := C.map m.pool.range)
    (X := [m.pool.range c]) (Y := [(start, m.pool.endAddress c)]) hs
    (hsize ▸ hsorted (hsorted₁ h.sorted)) hfs (by simp) ?_
    ⟨by simp [hlt.le], by simp⟩ (fun r hr t ht => ?_) (fun r hr t ht => ?_) ?_ (fun b => ?_) (by simp)
  · rw [hrange]
    exact hmap.trans (by simp)
  · rw [List.mem_singleton.mp ht]
    exact hbefore r hr
  · rw [List.mem_singleton.mp hr]
    have := (separated_cons.mp (separated_append.mp hsep).2.1).2.2 t ht
    exact this
  · simp only [total, List.map_cons, List.map_nil, List.sum_cons, List.sum_nil,
      MemoryEntryPool.range]
    omega
  · simp only [mem_covered_cons, mem_covered_nil, or_false, MemoryEntryPool.range, Set.mem_Ico]
    omega

/-- The next entry `c` has come to `x`, which takes its end, and `c` goes. -/
theorem Inv.merged {c : ℕ} {m₂ : MemoryAllocator} (h : Inv m (A ++ x :: c :: C) B)
    (he : e ≤ m.pool.endAddress c) (hafter : start ≤ after)
    (h₁ : MemoryAllocator.resizeEntry
      { m with pool := m.pool.withRange x (m.pool.startAddress x) e } c start
        (m.pool.endAddress c) = .ok m₁)
    (h₂ : m₁.mergeNext x c after true = .ok m₂)
    (hr : m₂.finishExtended x (m.pool.size x) size = .ok (r, m')) :
    r = .ok () ∧ m'.freeSize = m.freeSize + size ∧ ∃ B', Shape m' (A ++ [x] ++ C) B' (orderOf m') ∧
      SizeSorted m'.pool.size B' ∧ (A ++ [x] ++ C).map m'.pool.range =
        A.map m.pool.range ++ [(m.pool.startAddress x, m.pool.endAddress c)] ++ C.map m.pool.range := by
  have hd := h.shape.chain.nodup
  have hd' : (A ++ [x] ++ c :: C).Nodup := by simpa using hd
  have hxc : x ≠ c := (List.nodup_append.mp hd').2.2 x (by simp) c (by simp)
  simp only [MemoryAllocator.resizeEntry, Exec.bind_eq_ok] at h₁
  obtain ⟨old, hold, _, hq, h₁⟩ := h₁
  obtain ⟨hlt, rfl⟩ := MemoryEntryPool.setRange_eq_ok hq
  have hold' : old = m.pool.size c := by
    rw [MemoryEntryPool.getSize_eq_ok hold]
    simp [MemoryEntryPool.size, MemoryEntryPool.withRange, Function.update_of_ne (Ne.symm hxc)]
  subst hold'
  obtain ⟨⟨lp, ln, fl, rfl⟩, B₁, hs₁⟩ := ((h.shape.withRange x (m.pool.startAddress x)
    e).withRange c start (m.pool.endAddress c)).rechain (by simp) rfl h₁
  simp only [MemoryAllocator.mergeNext, Exec.bind_eq_ok] at h₂
  obtain ⟨_, -, h₂⟩ := h₂
  rw [if_pos (.inr ⟨trivial, by simpa [MemoryEntryPool.withRange] using hafter⟩)] at h₂
  simp only [Exec.bind_eq_ok] at h₂
  obtain ⟨_, hq₂, h₂⟩ := h₂
  obtain ⟨-, rfl⟩ := MemoryEntryPool.setRange_eq_ok hq₂
  have hxs : ((m.pool.withRange x (m.pool.startAddress x) e).withRange c start
      (m.pool.endAddress c)).startAddress x = m.pool.startAddress x := by
    simp [MemoryEntryPool.withRange, Function.update_of_ne hxc]
  have hmax : max (((m.pool.withRange x (m.pool.startAddress x) e).withRange c start
      (m.pool.endAddress c)).endAddress x) (((m.pool.withRange x (m.pool.startAddress x)
        e).withRange c start (m.pool.endAddress c)).endAddress c) = m.pool.endAddress c := by
    simp only [MemoryEntryPool.withRange, Function.update_self, Function.update_of_ne hxc]
    omega
  simp only [hxs, hmax] at h₂
  -- The merged entry is `x` with the end of `c`; `c` goes, and `x` moves to its new list.
  have hs₂ := hs₁.withRange x (m.pool.startAddress x) (m.pool.endAddress c)
  have hL : A ++ x :: c :: C = A ++ [x] ++ c :: C := by simp
  rw [hL] at hs₂
  obtain ⟨hfs₂, hrange₂, B₂, hs₃⟩ := hs₂.deleteEntry (f := m.firstEntry)
    (by simp [MemoryEntryPool.size, MemoryEntryPool.withRange, Function.update_of_ne (Ne.symm hxc)])
    (by rw [h.shape.chain.head]; simp) h₂
  have hother : ∀ i, i ≠ x → i ≠ c → m₂.pool.range i = m.pool.range i := by
    intro i hix hic
    rw [hrange₂]
    simp [MemoryEntryPool.range, MemoryEntryPool.withRange, Function.update_of_ne hix,
      Function.update_of_ne hic]
  have hnot : c ∉ A ++ [x] ++ C := (List.nodup_cons.mp (List.nodup_middle.mp hd')).1
  obtain ⟨rfl, hfs, hrange, B', hs⟩ := hs₃.finishExtended (m.pool.size x) (by simp)
    (by rw [Function.update_of_ne hxc]; rfl) (fun i hi hix => by
      have hic : i ≠ c := fun hc => hnot (hc ▸ hi)
      rw [Function.update_of_ne hic]
      exact (orderOf_eq (hother i hix hic)).symm) hr
  -- `c` may have come to a wrong place, as the size of `x` was not the one it was filed at. It is gone.
  have hB₂ : ∀ j, B₂ j = (B j).filter (· ≠ c) := by
    intro j
    rw [hs₂.unfiled (f := m.firstEntry) (by simp) (by simp [MemoryEntryPool.size,
      MemoryEntryPool.withRange, Function.update_of_ne (Ne.symm hxc)]) h₂ hs₃ j]
    exact (((h.shape.withRange x (m.pool.startAddress x) e).withRange c start
      (m.pool.endAddress c)).refiled (by simp) rfl h₁ hs₁).others j
  have hfiled : SizeSorted (Function.update m₂.pool.size x (m.pool.size x)) B₂ := by
    refine (h.sorted.sublist fun j => ?_).congr fun j i hi => ?_
    · rw [hB₂]
      exact List.filter_sublist
    · rw [hB₂, List.mem_filter, decide_eq_true_eq] at hi
      have hic : i ≠ c := hi.2
      by_cases hix : i = x
      · rw [hix, Function.update_self]
      · rw [Function.update_of_ne hix, size_eq (hother i hix hic)]
  have hsorted := (hs₃.refiled_finish (m.pool.size x) (by simp)
    (by rw [Function.update_of_ne hxc]; rfl) hr hs).sorted hfiled
  have hsize : m'.pool.size = m₂.pool.size := funext fun i => size_eq (congrFun hrange i)
  have hx₂ : m₂.pool.range x = (m.pool.startAddress x, m.pool.endAddress c) := by
    rw [hrange₂]
    simp [MemoryEntryPool.range, MemoryEntryPool.withRange]
  have hxAC : x ∉ A ++ c :: C := (List.nodup_cons.mp (List.nodup_middle.mp hd)).1
  have hAC : ∀ i ∈ A ++ C, m₂.pool.range i = m.pool.range i := by
    intro i hi
    refine hother i (fun hc => hxAC ?_) fun hc => hnot ?_ <;>
      simp only [← hc, List.mem_append, List.mem_cons] at hi ⊢ <;> tauto
  refine ⟨rfl, hfs.trans (by rw [hfs₂]), B', hs, hsize ▸ hsorted, ?_⟩
  rw [hrange]
  simp only [List.map_append, List.map_cons, List.map_nil, hx₂]
  rw [List.map_congr_left fun i hi => hAC i (by simp [hi]),
    List.map_congr_left fun i hi => hAC i (List.mem_append_right A hi)]

/-- The range goes from `x` to the next entry `c`. It may start inside of `x`. -/
theorem Inv.growBoth {c : ℕ} {m₂ : MemoryAllocator} (h : Inv m (A ++ x :: c :: C) B)
    (hs : m.pool.startAddress x ≤ start) (hx : start ≤ m.pool.endAddress x + 1)
    (hc : m.pool.startAddress c = start + size) (he : e ≤ m.pool.endAddress c) (hafter : start ≤ after)
    (h₁ : MemoryAllocator.resizeEntry
      { m with pool := m.pool.withRange x (m.pool.startAddress x) e } c start
        (m.pool.endAddress c) = .ok m₁)
    (h₂ : m₁.mergeNext x c after true = .ok m₂)
    (hr : m₂.finishExtended x (m.pool.size x) size = .ok (r, m')) :
    FreedRange m (A ++ x :: c :: C) (Set.Ico start (start + size)) r m' := by
  obtain ⟨rfl, hfs, B', hs', hsorted, hmap⟩ := h.merged he hafter h₁ h₂ hr
  have hsep := h.separated
  simp only [List.map_append, List.map_cons] at hsep
  have hxle : m.pool.startAddress x ≤ m.pool.endAddress x :=
    (separated_cons.mp (separated_append.mp hsep).2.1).1
  have hgap : m.pool.endAddress x + 1 < m.pool.startAddress c :=
    (separated_cons.mp (separated_append.mp hsep).2.1).2.2 (m.pool.range c) (by simp)
  have hcC := (separated_cons.mp (separated_append.mp hsep).2.1).2.1
  have hcle : m.pool.startAddress c ≤ m.pool.endAddress c := (separated_cons.mp hcC).1
  refine h.grown (U := A.map m.pool.range) (V := C.map m.pool.range)
    (X := [m.pool.range x, m.pool.range c]) (Y := [(m.pool.startAddress x, m.pool.endAddress c)]) hs'
    hsorted hfs (by simp) hmap ⟨by simp; omega, by simp⟩ (fun r hr t ht => ?_)
    (fun r hr t ht => ?_) ?_ (fun b => ?_) (by simp)
  · rw [List.mem_singleton.mp ht]
    exact (separated_append.mp hsep).2.2 r hr (m.pool.range x) (by simp)
  · rw [List.mem_singleton.mp hr]
    exact (separated_cons.mp hcC).2.2 t ht
  · simp only [total, List.map_cons, List.map_nil, List.sum_cons, List.sum_nil,
      MemoryEntryPool.range]
    omega
  · simp only [mem_covered_cons, mem_covered_nil, or_false, MemoryEntryPool.range, Set.mem_Ico]
    omega

/-- If the range does not touch the next entry, it touches none of those after it. -/
theorem Inv.lt_of_not_touch (h : Inv m (A ++ x :: C) B)
    (hno : ¬∃ c C', C = c :: C' ∧ m.pool.startAddress c = stop + 1)
    (hC : ∀ c ∈ C, stop < m.pool.startAddress c) : ∀ c ∈ C, stop + 1 < m.pool.startAddress c := by
  intro c hc
  have hsep := h.separated
  simp only [List.map_append, List.map_cons] at hsep
  cases C with
  | nil => simp at hc
  | cons c₀ C =>
    have hne : m.pool.startAddress c₀ ≠ stop + 1 := fun h => hno ⟨c₀, C, rfl, h⟩
    have h₀ := hC c₀ (by simp)
    rcases List.mem_cons.mp hc with rfl | hc
    · omega
    · have hs := separated_cons.mp (separated_cons.mp (separated_append.mp hsep).2.1).2.1
      have h1 := hs.2.2 _ (List.mem_map_of_mem hc)
      have h2 := hs.1
      simp only [MemoryEntryPool.range] at h1 h2
      omega

/-- `define_free_memory` at the last entry `x` that ends before the range. -/
theorem Inv.freeAfter (h : Inv m (A ++ x :: C) B) (hx : m.pool.endAddress x < start)
    (hC : ∀ c ∈ C, stop < m.pool.startAddress c) (hstop : stop + 1 = start + size) (hz : size ≠ 0)
    (hr : m.freeBeside again x start stop size = .ok (r, m')) :
    FreedRange m (A ++ x :: C) (Set.Ico start (start + size)) r m' := by
  have hsep := h.separated
  simp only [List.map_append, List.map_cons] at hsep
  have hAx : ∀ a ∈ A.map m.pool.range, a.2 + 1 < m.pool.startAddress x := fun a ha =>
    (separated_append.mp hsep).2.2 a ha (m.pool.range x) (by simp)
  have hxC : ∀ c ∈ C, m.pool.endAddress x + 1 < m.pool.startAddress c := fun c hc =>
    (separated_cons.mp (separated_append.mp hsep).2.1).2.2 _ (List.mem_map_of_mem hc)
  have hxle : m.pool.startAddress x ≤ m.pool.endAddress x :=
    (separated_cons.mp (separated_append.mp hsep).2.1).1
  have hgap := fun hno => h.lt_of_not_touch hno hC
  have hL : A ++ x :: C = A ++ [x] ++ C := by simp
  simp only [MemoryAllocator.freeBeside, Exec.bind_eq_ok] at hr
  obtain ⟨old, hold, after, hafter, ⟨pool₁, b₁⟩, h₁, ⟨pool₂, b₂⟩, h₂, hr⟩ := hr
  obtain rfl := MemoryEntryPool.getSize_eq_ok hold
  obtain ⟨-, rfl⟩ := checkedAdd_eq_ok.mp hafter
  have hstart : ∀ {p : MemoryEntryPool} {b : Bool} {q : MemoryEntryPool × Bool},
      p.startAddress x = m.pool.startAddress x →
      MemoryAllocator.extendStart p x start stop b = .ok q → q = (p, b) := by
    intro p b q hp hq
    unfold MemoryAllocator.extendStart at hq
    split_ifs at hq with hprev
    · simp only [Exec.bind_eq_ok] at hq
      obtain ⟨_, ha, hq⟩ := hq
      obtain ⟨-, rfl⟩ := checkedAdd_eq_ok.mp ha
      rw [if_neg (by omega)] at hq
      cases hq
      rfl
    · cases hq
      rfl
  unfold MemoryAllocator.extendEnd at h₁
  split_ifs at h₁ with hleft
  · -- The entry grows to the end of the range.
    simp only [Exec.bind_eq_ok] at h₁
    obtain ⟨_, hq, h₁⟩ := h₁
    obtain ⟨hlt, rfl⟩ := MemoryEntryPool.setRange_eq_ok hq
    cases h₁
    obtain ⟨rfl, rfl⟩ := Prod.ext_iff.mp (hstart (by simp [MemoryEntryPool.withRange]) h₂)
    have hnext : (m.pool.withRange x (m.pool.startAddress x) stop).getNextEntry x = C.head? :=
      h.shape.chain.getNextEntry
    simp only [hnext] at hr
    have hne : ∀ c ∈ C, c ≠ x := fun c hc hcx =>
      (List.nodup_cons.mp (List.nodup_append.mp h.shape.chain.nodup).2.1).1 (hcx ▸ hc)
    have hcs : ∀ c ∈ C, (m.pool.withRange x (m.pool.startAddress x) stop).startAddress c =
        m.pool.startAddress c := fun c hc => by
      simp [MemoryEntryPool.withRange]
    by_cases hright : ∃ c C', C = c :: C' ∧ m.pool.startAddress c = stop + 1
    · obtain ⟨c, C', rfl, hc⟩ := hright
      have hc₁ := hcs c (by simp)
      obtain ⟨m₁, m₂, hm₁, hm₂, hr⟩ := freeWithNext_touch (by rw [hc₁]; omega) (hc₁.trans hc) hr
      have hce : (m.pool.withRange x (m.pool.startAddress x) stop).endAddress c =
          m.pool.endAddress c := by
        simp [MemoryEntryPool.withRange, Function.update_of_ne (hne c (by simp))]
      simp only [hce] at hm₁
      have hcle : m.pool.startAddress c ≤ m.pool.endAddress c := h.separated.1 (m.pool.range c) (by simp)
      exact h.growBoth (by omega) hleft.ge (by omega) (by omega) hleft.ge hm₁ hm₂ hr
    · have hr := freeWithNext_apart (fun c hc => by
        have hmem := List.mem_of_head? hc
        have h1 := hcs c hmem
        have h2 := hgap hright c hmem
        have h4 : (m.pool.withRange x (m.pool.startAddress x) stop).endAddress x = stop := by
          simp [MemoryEntryPool.withRange]
        simp only [h1, h4]
        omega) hr
      refine h.growEntry (by omega) hAx (fun c hc => ?_) ?_ (fun b => ?_) hr
      · obtain ⟨i, hi, rfl⟩ := List.mem_map.mp hc
        exact hgap hright i hi
      · simp only [MemoryEntryPool.size]
        omega
      · simp only [Set.mem_Ico]
        omega
  · cases h₁
    obtain ⟨rfl, rfl⟩ := Prod.ext_iff.mp (hstart rfl h₂)
    have hnext : m.pool.getNextEntry x = C.head? := h.shape.chain.getNextEntry
    simp only [hnext] at hr
    by_cases hright : ∃ c C', C = c :: C' ∧ m.pool.startAddress c = stop + 1
    · obtain ⟨c, C', rfl, hc⟩ := hright
      obtain ⟨m₁, m₂, hm₁, hm₂, hr⟩ := freeWithNext_touch (by omega) hc hr
      exact h.growNext (by omega) (by omega) hm₁ hm₂ hr
    · have hr := freeWithNext_apart (fun c hc => by
        have hmem := List.mem_of_head? hc
        have h2 := hgap hright c hmem
        have h4 := hxC c hmem
        simp only
        omega) hr
      rw [hL] at h ⊢
      refine h.insertEntry (by simp) (fun y _ hy => ?_) ?_ ?_ hstop hr
      · rw [← hL] at h
        rw [h.shape.chain.linkNewEntry_after hy (fun _ => by omega) fun _ => hx, List.getLast?_concat,
          h.shape.chain.head]
        simp
      · intro i hi
        rcases List.mem_append.mp hi with hi | hi
        · have := hAx _ (List.mem_map_of_mem hi)
          simp only [MemoryEntryPool.range] at this
          omega
        · rw [List.mem_singleton.mp hi]
          omega
      · exact hgap hright

/-- `define_free_memory` at the first entry, which starts after the range. -/
theorem Inv.freeBefore (h : Inv m (x :: C) B) (hx : stop < m.pool.startAddress x)
    (hstop : stop + 1 = start + size)
    (hr : m.freeBeside again x start stop size = .ok (r, m')) :
    FreedRange m (x :: C) (Set.Ico start (start + size)) r m' := by
  have hsep := separated_cons.mp h.separated
  have hxC : ∀ c ∈ C, m.pool.endAddress x + 1 < m.pool.startAddress c := fun c hc =>
    hsep.2.2 _ (List.mem_map_of_mem hc)
  have hxle : m.pool.startAddress x ≤ m.pool.endAddress x := hsep.1
  have hprev : m.pool.previous x = none := h.shape.chain.previous (A := [])
  simp only [MemoryAllocator.freeBeside, Exec.bind_eq_ok] at hr
  obtain ⟨old, hold, after, hafter, ⟨pool₁, b₁⟩, h₁, ⟨pool₂, b₂⟩, h₂, hr⟩ := hr
  obtain rfl := MemoryEntryPool.getSize_eq_ok hold
  obtain ⟨-, rfl⟩ := checkedAdd_eq_ok.mp hafter
  unfold MemoryAllocator.extendEnd at h₁
  rw [if_neg (by omega)] at h₁
  cases h₁
  unfold MemoryAllocator.extendStart at h₂
  rw [if_pos hprev] at h₂
  simp only [Exec.bind_eq_ok] at h₂
  obtain ⟨_, ha, h₂⟩ := h₂
  obtain ⟨-, rfl⟩ := checkedAdd_eq_ok.mp ha
  have hnext : m.pool.getNextEntry x = C.head? := h.shape.chain.getNextEntry (A := [])
  split_ifs at h₂ with htouch
  · simp only [Exec.bind_eq_ok] at h₂
    obtain ⟨_, hq, h₂⟩ := h₂
    obtain ⟨hlt, rfl⟩ := MemoryEntryPool.setRange_eq_ok hq
    cases h₂
    have hnext' : (m.pool.withRange x start (m.pool.endAddress x)).getNextEntry x = C.head? := hnext
    simp only [hnext'] at hr
    have hne : ∀ c ∈ C, c ≠ x := fun c hc hcx =>
      (List.nodup_cons.mp h.shape.chain.nodup).1 (hcx ▸ hc)
    have hr := freeWithNext_apart (fun c hc => by
      have hmem := List.mem_of_head? hc
      have h1 : (m.pool.withRange x start (m.pool.endAddress x)).startAddress c =
          m.pool.startAddress c := by
        simp [MemoryEntryPool.withRange, Function.update_of_ne (hne c hmem)]
      have h2 : (m.pool.withRange x start (m.pool.endAddress x)).endAddress x =
          m.pool.endAddress x := by
        simp [MemoryEntryPool.withRange]
      have h3 := hxC c hmem
      simp only [h1, h2]
      omega) hr
    refine Inv.growEntry (A := []) h (by omega) (by simp) (fun c hc => ?_) ?_ (fun b => ?_) hr
    · exact hsep.2.2 c hc
    · simp only [MemoryEntryPool.size]
      omega
    · simp only [Set.mem_Ico]
      omega
  · cases h₂
    simp only [hnext] at hr
    have hr := freeWithNext_apart (fun c hc => by
      have h3 := hxC c (List.mem_of_head? hc)
      simp only
      omega) hr
    refine Inv.insertEntry (A := []) h (by simp) (fun y _ hy => ?_) (by simp)
      (fun i hi => ?_) hstop hr
    · rw [h.shape.chain.linkNewEntry_before hy (fun _ => hx) fun _ => by omega]
      simp
    · rcases List.mem_cons.mp hi with rfl | hi
      · omega
      · have := hxC i hi
        omega

end FreeBeside

/-- The entries before a range that is not free, and the entries after it. -/
theorem Inv.split_at (h : Inv m L B) (hz : size ≠ 0)
    (hfree : ∀ b ∈ Set.Ico start (start + size), b ∉ covered (L.map m.pool.range)) :
    ∃ A C, L = A ++ C ∧
      (∀ i ∈ A, m.pool.startAddress i < start ∧ m.pool.endAddress i < start) ∧
      ∀ i ∈ C, start + size ≤ m.pool.startAddress i := by
  have hmem : ∀ i ∈ L, m.pool.startAddress i ≤ m.pool.endAddress i := fun i hi =>
    h.separated.1 _ (List.mem_map_of_mem hi)
  have hout : ∀ i ∈ L, ∀ b, m.pool.startAddress i ≤ b → b ≤ m.pool.endAddress i →
      b ∉ Set.Ico start (start + size) := fun i hi b h1 h2 hb =>
    hfree b hb ⟨_, List.mem_map_of_mem hi, h1, h2⟩
  refine ⟨L.takeWhile fun i => m.pool.startAddress i < start,
    L.dropWhile fun i => m.pool.startAddress i < start,
    List.takeWhile_append_dropWhile.symm, fun i hi => ?_, ?_⟩
  · have hlt : m.pool.startAddress i < start := by
      have := List.all_eq_true.mp (List.all_takeWhile (p := _)) i hi
      simpa using this
    have hiL : i ∈ L := (List.takeWhile_sublist _).subset hi
    refine ⟨hlt, ?_⟩
    by_contra hge
    exact hout i hiL start (by omega) (by omega) (Set.mem_Ico.mpr ⟨le_rfl, by omega⟩)
  · -- The first of them starts at the range or later, and the others after it.
    have hsuffix : (L.dropWhile fun i => m.pool.startAddress i < start).Sublist L :=
      List.dropWhile_sublist _
    have hge : ∀ i ∈ L.dropWhile (fun i => m.pool.startAddress i < start),
        start ≤ m.pool.startAddress i := by
      have hpw := List.pairwise_map.mp h.separated.2
      have hpw' := hpw.sublist hsuffix
      cases hd : L.dropWhile (fun i => m.pool.startAddress i < start) with
      | nil => simp
      | cons c C =>
        have hc : start ≤ m.pool.startAddress c := by
          have := List.head?_dropWhile_not (fun i => m.pool.startAddress i < start) L
          rw [hd] at this
          simpa using this
        rw [hd] at hpw'
        intro i hi
        rcases List.mem_cons.mp hi with rfl | hi
        · exact hc
        · have h1 := List.rel_of_pairwise_cons hpw' hi
          have h2 := hmem c (hsuffix.subset (by simp [hd]))
          simp only [MemoryEntryPool.range] at h1
          omega
    intro i hi
    have hiL : i ∈ L := hsuffix.subset hi
    by_contra hlt
    exact hout i hiL _ le_rfl (hmem i hiL) (Set.mem_Ico.mpr ⟨hge i hi, by omega⟩)

/-- Where `define_free_memory` works for a range with no free byte : at the last entry that ends
before the range, or at the first entry. -/
theorem Inv.defineFreeMemory_eq (h : Inv m L B) (hL : L ≠ []) (hz : size ≠ 0)
    (hfree : ∀ b ∈ Set.Ico start (start + size), b ∉ covered (L.map m.pool.range)) (fuel : ℕ) :
    ∃ A x C, L = A ++ x :: C ∧
      MemoryAllocator.defineFreeMemory (fuel + 1) m start size = (getEndAddress start size >>=
        fun stop => m.freeBeside (MemoryAllocator.defineFreeMemory fuel) x start stop size) ∧
      ((m.pool.endAddress x < start ∧ ∀ c ∈ C, start + size ≤ m.pool.startAddress c) ∨
        (A = [] ∧ start + size ≤ m.pool.startAddress x)) := by
  obtain ⟨A, C, rfl, hA, hC⟩ := h.split_at hz hfree
  have hsearch : m.pool.searchEntryPreviousAddress m.firstEntry start = .ok A.getLast? :=
    h.shape.chain.searchEntryPreviousAddress (fun i hi => ⟨(hA i hi).1, (hA i hi).2.le⟩)
      fun c hc => le_trans (Nat.le_add_right _ _) (hC c (List.mem_of_head? hc))
  -- The checks for a range that is free already do not apply.
  have hrange : ∀ {x : ℕ}, ¬(m.pool.startAddress x ≤ start ∧ start + size - 1 ≤ m.pool.endAddress x) →
      ¬(start ≤ m.pool.endAddress x ∧ m.pool.previous x ≠ none) →
      m.pool.endAddress x ≠ start + size - 1 →
      (getEndAddress start size >>= fun stop =>
        m.freeRange (MemoryAllocator.defineFreeMemory fuel) x start stop size) =
      (getEndAddress start size >>= fun stop =>
        m.freeBeside (MemoryAllocator.defineFreeMemory fuel) x start stop size) := by
    intro x h1 h2 h3
    cases hstop : getEndAddress start size with
    | error t => rfl
    | ok stop =>
      obtain ⟨_, hsum, hsub⟩ := Exec.bind_eq_ok.mp hstop
      obtain ⟨-, rfl⟩ := checkedAdd_eq_ok.mp hsum
      obtain ⟨-, rfl⟩ := checkedSub_eq_ok.mp hsub
      rw [Exec.ok_bind, Exec.ok_bind, MemoryAllocator.freeRange, if_neg h1, if_neg h2, if_neg h3]
  unfold MemoryAllocator.defineFreeMemory
  rw [if_neg hz]
  simp only [MemoryAllocator.entryBefore, hsearch, Exec.ok_bind]
  rcases List.eq_nil_or_concat A with rfl | ⟨A', x, rfl⟩
  · cases C with
    | nil => exact absurd rfl hL
    | cons x C =>
      have hx := hC x (by simp)
      have hle : m.pool.startAddress x ≤ m.pool.endAddress x :=
        h.separated.1 (m.pool.range x) (by simp)
      have hprev : m.pool.previous x = none := h.shape.chain.previous (A := [])
      have hlt : x < poolSize := h.shape.chain.lt (by simp)
      refine ⟨[], x, C, rfl, ?_, .inr ⟨rfl, hx⟩⟩
      simp only [List.getLast?_nil, h.shape.chain.head, List.nil_append, List.head?_cons,
        MemoryEntryPool.getMemoryEntry_of_lt hlt, Exec.pure_eq_ok, Exec.ok_bind]
      exact hrange (by omega) (by simp [hprev]) (by omega)
  · have hx := hA x (by simp)
    refine ⟨A', x, C, by simp, ?_, .inl ⟨hx.2, hC⟩⟩
    simp only [List.concat_eq_append, List.getLast?_concat, Exec.pure_eq_ok, Exec.ok_bind]
    exact hrange (by omega) (by omega) (by omega)

/-- `define_free_memory` on a range with no free byte. -/
theorem Inv.defineFreeMemory (h : Inv m L B) (hL : L ≠ []) (hz : size ≠ 0)
    (hfree : ∀ b ∈ Set.Ico start (start + size), b ∉ covered (L.map m.pool.range)) {fuel : ℕ}
    (hr : MemoryAllocator.defineFreeMemory (fuel + 1) m start size = .ok (r, m')) :
    FreedRange m L (Set.Ico start (start + size)) r m' := by
  obtain ⟨A, x, C, rfl, heq, hside⟩ := h.defineFreeMemory_eq hL hz hfree fuel
  rw [heq] at hr
  obtain ⟨_, hstop, hr⟩ := Exec.bind_eq_ok.mp hr
  obtain ⟨_, hsum, hsub⟩ := Exec.bind_eq_ok.mp hstop
  obtain ⟨-, rfl⟩ := checkedAdd_eq_ok.mp hsum
  obtain ⟨-, rfl⟩ := checkedSub_eq_ok.mp hsub
  rcases hside with ⟨hx, hC⟩ | ⟨rfl, hx⟩
  · exact h.freeAfter hx (fun c hc => by have := hC c hc; omega) (by omega) hz hr
  · exact h.freeBefore (by omega) (by omega) hr

end

end MiniVisor
