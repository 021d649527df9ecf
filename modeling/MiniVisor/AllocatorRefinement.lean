import MiniVisor.AllocatorInvariant

/-!
# The allocator refines a set of free bytes

`freeBytes` abstracts the address chain to the set of its bytes. Under the invariant `allocate`
takes an aligned block out of this set, `reserve_memory` removes its range and `free` adds its
range, and a call that fails changes nothing.

`AllocatorRun` is a run of such calls from `new`, with the blocks that are in use. In every state
of it the chain is well formed, each call does to the free bytes what it should, and no two
blocks in use overlap.
-/

namespace MiniVisor

open Machine

namespace MemoryAllocator

/-- The chain from `first_entry` through `next`. -/
def chain (m : MemoryAllocator) : List ℕ :=
  walk m.pool.next poolSize m.firstEntry

/-- The free list of order `k`, from its head through `list_next`. -/
def freeEntries (m : MemoryAllocator) (k : ℕ) : List ℕ :=
  walk m.pool.listNext poolSize (m.freeList k)

/-- The free bytes : those of the entries of the chain. -/
def freeBytes (m : MemoryAllocator) : Set ℕ :=
  covered (m.chain.map m.pool.range)

/-- The chain visits the entries in use, each once, in address order, disjoint and never
adjacent, and `previous` is the inverse of `next`. -/
structure Chained (m : MemoryAllocator) : Prop where
  first : m.firstEntry = m.chain.head?
  linked : Linked m.pool.next m.pool.previous none m.chain none
  visits : ∀ i, i ∈ m.chain ↔ i < poolSize ∧ m.pool.enabled i = true
  once : m.chain.Nodup
  nonempty : ∀ i ∈ m.chain, m.pool.startAddress i ≤ m.pool.endAddress i
  sorted : m.chain.Pairwise fun i j => m.pool.endAddress i + 1 < m.pool.startAddress j

end MemoryAllocator

variable {m m' : MemoryAllocator} {L : List ℕ} {B : ℕ → List ℕ} {key : ℕ → Option ℕ} {start size : ℕ}

theorem Shape.chain_eq (h : Shape m L B key) : m.chain = L := by
  rw [MemoryAllocator.chain, h.chain.head]
  exact walk_of_linked _ h.chain.linked h.chain.length_le

theorem Shape.freeEntries_eq (h : Shape m L B key) (k : ℕ) : m.freeEntries k = B k := by
  have hhead : m.freeList k = (B k).head? := h.lists.head k
  rw [MemoryAllocator.freeEntries, hhead]
  exact walk_of_linked _ (h.lists.linked k) (h.lists.length_le k)

theorem Shape.freeBytes_eq (h : Shape m L B key) : m.freeBytes = covered (L.map m.pool.range) := by
  rw [MemoryAllocator.freeBytes, h.chain_eq]

theorem Inv.chain_eq (h : Inv m L B) : m.chain = L :=
  h.shape.chain_eq

theorem Inv.freeBytes_eq (h : Inv m L B) : m.freeBytes = covered (L.map m.pool.range) :=
  h.shape.freeBytes_eq

theorem Inv.chained (h : Inv m L B) : m.Chained := by
  have hc := h.chain_eq
  refine ⟨?_, ?_, ?_, ?_, fun i hi => ?_, ?_⟩ <;> rw [hc] at *
  · exact h.shape.chain.head
  · exact h.shape.chain.linked
  · exact h.shape.chain.mem_iff
  · exact h.shape.chain.nodup
  · exact h.separated.1 _ (List.mem_map_of_mem hi)
  · exact List.pairwise_map.mp h.separated.2

/-- The allocator's invariant, without its witnesses. -/
def MemoryAllocator.Valid (m : MemoryAllocator) : Prop :=
  (∃ L B, Inv m L B) ∧ ∀ b ∈ m.freeBytes, b < 2 ^ 64

/-! ## Calls -/

theorem Inv.new : Inv .new [] fun _ => [] where
  shape := {
    chain := ⟨rfl, trivial, List.nodup_nil, by simp [MemoryAllocator.new, MemoryEntryPool.new],
      by simp⟩
    lists := ⟨by simp [MemoryAllocator.new], fun _ => trivial, fun _ => List.nodup_nil, by simp,
      by simp⟩
    listed := by simp }
  sorted _ := List.Pairwise.nil
  separated := ⟨by simp, by simp⟩
  counted := by simp [total]
  unused _ := rfl

theorem MemoryAllocator.valid_new : MemoryAllocator.new.Valid :=
  ⟨⟨_, _, .new⟩, by simp [Inv.new.freeBytes_eq]⟩

/-- `free` on the first range of all. -/
theorem Inv.freeFirst {r : MemoryResult Unit} (h : Inv m L B) (hf : m.freeSize = 0)
    (hr : m.free start size = .ok (r, m')) :
    FreedRange m L (Set.Ico start (start + size)) r m' := by
  have hL : L = [] := by
    have := h.counted
    rw [hf] at this
    cases L with
    | nil => rfl
    | cons i L => simp at this
  subst hL
  unfold MemoryAllocator.free at hr
  rw [if_pos hf] at hr
  cases hcreate : m.pool.createMemoryEntry with
  | none =>
    simp only [hcreate, Except.ok.injEq, Prod.mk.injEq] at hr
    obtain ⟨rfl, rfl⟩ := hr
    rfl
  | some new =>
    obtain ⟨y, q⟩ := new
    obtain ⟨hy, hye, rfl⟩ := MemoryEntryPool.createMemoryEntry_eq_some hcreate
    simp only [hcreate, getEndAddress, Exec.bind_eq_ok] at hr
    obtain ⟨_, ⟨_, hsum, hstop⟩, _, hq, m₁, hm₁, hr⟩ := hr
    cases hr
    obtain ⟨-, rfl⟩ := checkedAdd_eq_ok.mp hsum
    obtain ⟨-, rfl⟩ := checkedSub_eq_ok.mp hstop
    obtain ⟨hlt, rfl⟩ := MemoryEntryPool.setRange_eq_ok hq
    have hshape := (h.shape.insertEntry (A := []) (C := []) (f := some y) hy hye rfl).withRange y
      start (start + size - 1)
    have hnone : (m.pool.fresh y).chained y none none = m.pool.fresh y := by
      simp only [MemoryEntryPool.chained]
      ext i : 2 <;> try rfl
      · by_cases hi : i = y <;> simp [hi, MemoryEntryPool.fresh]
      · by_cases hi : i = y <;> simp [hi, MemoryEntryPool.fresh]
    simp only [List.getLast?_nil, List.head?_nil, hnone] at hshape
    -- `rechain` neither reads nor writes `first_entry`.
    have hm₁' : MemoryAllocator.rechain { m with
        firstEntry := some y
        pool := (m.pool.fresh y).withRange y start (start + size - 1) } y none =
          .ok { m₁ with firstEntry := some y } := by
      simp only [MemoryAllocator.rechain, Exec.bind_eq_ok] at hm₁ ⊢
      obtain ⟨pl, hpl, hm₁⟩ := hm₁
      cases hm₁
      exact ⟨pl, hpl, rfl⟩
    obtain ⟨⟨lp, ln, fl, hsame⟩, B', hs⟩ := hshape.rechain_last (by simp) (by simp) (by simp)
      hm₁'
    have hpool := congrArg MemoryAllocator.pool hsame
    simp only at hpool
    have hid : m₁.pool.id y = y := by
      rw [hpool]
      simp [MemoryEntryPool.withRange, MemoryEntryPool.fresh]
    have hrange : m₁.pool.range y = (start, start + size - 1) := by
      rw [hpool]
      simp [MemoryEntryPool.range, MemoryEntryPool.withRange]
    rw [hid]
    have hsorted : SizeSorted m₁.pool.size B' := by
      have hy : ∀ k, ∀ i ∈ B' k, i = y := fun k i hi => by simpa using ((hs.listed i k).mp hi).1
      intro k
      refine List.pairwise_of_forall_mem_list fun i hi j hj => ?_
      rw [hy k i hi, hy k j hj]
    refine ⟨[y], B', ⟨hs.withFreeSize size, hsorted, ?_, ?_, by simp⟩, ?_⟩
    · simp only [List.map_cons, List.map_nil, hrange]
      exact ⟨by simp [hlt.le], by simp⟩
    · simp only [List.map_cons, List.map_nil, hrange, total, List.sum_cons, List.sum_nil]
      omega
    · ext b
      simp only [List.map_cons, List.map_nil, hrange, mem_covered_cons, mem_covered_nil,
        or_false, false_or, Set.mem_union, Set.mem_Ico]
      omega

/-- `free` on a range with no free byte. -/
theorem Inv.free {r : MemoryResult Unit} (h : Inv m L B)
    (hfree : ∀ b ∈ Set.Ico start (start + size), b ∉ covered (L.map m.pool.range))
    (hr : m.free start size = .ok (r, m')) :
    FreedRange m L (Set.Ico start (start + size)) r m' := by
  by_cases hf : m.freeSize = 0
  · exact h.freeFirst hf hr
  · unfold MemoryAllocator.free at hr
    rw [if_neg hf] at hr
    simp only [Exec.bind_eq_ok] at hr
    obtain ⟨⟨r₁, m₁⟩, h₁, hr⟩ := hr
    have h₁ : MemoryAllocator.defineFreeMemory (255 + 1) m start size = .ok (r₁, m₁) := h₁
    by_cases hz : size = 0
    · rw [MemoryAllocator.defineFreeMemory, if_pos hz] at h₁
      cases h₁
      cases hr
      rfl
    have hdef := h.defineFreeMemory (fun hc => hf (h.unused hc)) hz hfree h₁
    cases r₁ with
    | error e =>
      cases hr
      exact hdef
    | ok u =>
      simp only [Exec.bind_eq_ok] at hr
      obtain ⟨_, hadd, hr⟩ := hr
      cases hr
      obtain ⟨-, rfl⟩ := checkedAdd_eq_ok.mp hadd
      obtain ⟨L', B', hinv, hcov⟩ := hdef
      refine ⟨L', B', ⟨hinv.shape.withFreeSize _, hinv.sorted, hinv.separated, ?_, fun hc => ?_⟩, hcov⟩
      · exact hinv.counted.trans (Nat.le_add_right _ _)
      · have hmem : start ∈ covered (L'.map m₁.pool.range) :=
          hcov ▸ Or.inr (Set.mem_Ico.mpr ⟨le_rfl, by omega⟩)
        simp [hc] at hmem

/-- `reserve_memory` on a range inside one entry. -/
theorem Inv.reserveMemory {r : MemoryResult Unit} (h : Inv m L B)
    (hin : ∃ i ∈ L, Set.Ico start (start + size) ⊆
      Set.Icc (m.pool.startAddress i) (m.pool.endAddress i))
    (hr : m.reserveMemory start size 0 = .ok (r, m')) :
    UsedRange m L (Set.Ico start (start + size)) r m' := by
  simp only [MemoryAllocator.reserveMemory, MemoryAllocator.defineUsedMemory, if_true,
    MemoryAllocator.defineUsedRange] at hr
  split_ifs at hr with hz hf
  · cases hr
    rfl
  · cases hr
    rfl
  · obtain ⟨x, hx, hsub⟩ := hin
    obtain ⟨A, C, rfl⟩ := List.append_of_mem hx
    have h1 := Set.mem_Icc.mp (hsub (Set.mem_Ico.mpr ⟨le_rfl, by omega⟩))
    have h2 := Set.mem_Icc.mp (hsub (Set.mem_Ico.mpr ⟨(by omega : start ≤ start + size - 1),
      by omega⟩))
    have hsearch : m.pool.searchEntryContainingAddress m.firstEntry start = .ok (some x) := by
      refine h.shape.chain.searchEntryContainingAddress (fun i hi => ?_) h1
      have hle := h.separated.1 (m.pool.range i) (by simp [List.mem_map_of_mem hi])
      have hlt := (separated_append.mp (List.map_append ▸ h.separated)).2.2 _
        (List.mem_map_of_mem hi) (m.pool.range x) (by simp)
      simp only [MemoryEntryPool.range] at hle hlt
      omega
    rw [hsearch, Exec.ok_bind] at hr
    exact h.useRange h1.1 (by omega) hz hr

/-- A range that was reserved was inside one free interval. -/
theorem Inv.inside_of_reserveMemory (h : Inv m L B)
    (hr : m.reserveMemory start size 0 = .ok (.ok (), m')) :
    ∃ i ∈ L, Set.Ico start (start + size) ⊆
      Set.Icc (m.pool.startAddress i) (m.pool.endAddress i) := by
  simp only [MemoryAllocator.reserveMemory, MemoryAllocator.defineUsedMemory, if_true,
    MemoryAllocator.defineUsedRange] at hr
  split_ifs at hr with hz hf
  · cases hr
  · cases hr
  · simp only [Exec.bind_eq_ok] at hr
    obtain ⟨_ | x, hsearch, hr⟩ := hr
    · cases hr
    · obtain ⟨hx, h1, h2⟩ := h.shape.chain.mem_of_searchEntryContainingAddress hsearch
      refine ⟨x, hx, fun b hb => ?_⟩
      obtain ⟨A, C, rfl⟩ := List.append_of_mem hx
      have := h.le_of_useRange hr
      have := Set.mem_Ico.mp hb
      exact Set.mem_Icc.mpr ⟨by omega, by omega⟩

/-- The address `allocate` takes from an entry is aligned and has room there. -/
theorem addressToAllocate_eq_some {p : MemoryEntryPool} {alignOrder i a : ℕ}
    (hle : p.startAddress i ≤ p.endAddress i) (hlt : p.endAddress i < 2 ^ 64) (hz : size ≠ 0)
    (h : MemoryAllocator.addressToAllocate p size alignOrder i = .ok (some a)) :
    2 ^ alignOrder ∣ a ∧ p.startAddress i ≤ a ∧ a + size ≤ p.endAddress i + 1 := by
  simp only [MemoryAllocator.addressToAllocate, Exec.bind_eq_ok] at h
  obtain ⟨s, hs, h⟩ := h
  have hsize := MemoryEntryPool.getSize_eq_ok hs
  simp only [MemoryEntryPool.size] at hsize
  split_ifs at h with h1 h2
  · simp only [Exec.bind_eq_ok, alignAddressAndAvailableSize] at h
    obtain ⟨⟨a', avail⟩, ha, h⟩ := h
    split_ifs at h with h3
    · cases h
    cases h
    split_ifs at ha with h4
    · cases ha
      exact ⟨dvd_zero _, by omega, by omega⟩
    · simp only [Exec.bind_eq_ok] at ha
      obtain ⟨alignSize, hshl, _, hadd, ha⟩ := ha
      obtain ⟨ho, rfl⟩ := checkedShl_one_eq_ok.mp hshl
      obtain ⟨-, rfl⟩ := checkedAdd_eq_ok.mp hadd
      rw [land_bitNot_two_pow ho.le (by omega)] at ha
      have hdiv := Nat.div_add_mod (p.startAddress i - 1) (2 ^ alignOrder)
      have hmod := Nat.mod_lt (p.startAddress i - 1) (Nat.two_pow_pos alignOrder)
      rw [Nat.mul_comm] at hdiv
      have hdvd : 2 ^ alignOrder ∣ (p.startAddress i - 1) / 2 ^ alignOrder * 2 ^ alignOrder +
          2 ^ alignOrder := Nat.dvd_add (Nat.dvd_mul_left _ _) (dvd_refl _)
      split_ifs at ha with h5 <;> cases ha
      · exact ⟨hdvd, by omega, by omega⟩
      · exact absurd (Nat.pos_of_ne_zero hz) h3
  · cases h
    have h0 : alignOrder = 0 := not_not.mp h2
    exact ⟨by simp [h0], le_rfl, by omega⟩
  · cases h

/-- The result and the state after `allocate` : a block of free bytes that are not free any
more, or nothing. -/
def Allocated (m : MemoryAllocator) (L : List ℕ) (size alignOrder : ℕ) (r : MemoryResult ℕ)
    (m' : MemoryAllocator) : Prop :=
  match r with
  | .error _ => m' = m
  | .ok a => 2 ^ alignOrder ∣ a ∧ Set.Ico a (a + size) ⊆ covered (L.map m.pool.range) ∧
    ∃ L' B', Inv m' L' B' ∧
      covered (L'.map m'.pool.range) = covered (L.map m.pool.range) \ Set.Ico a (a + size)

/-- The scan of one free list. -/
theorem Inv.allocateStep_loop {alignOrder k : ℕ} (h : Inv m L B)
    (hlt : ∀ b ∈ covered (L.map m.pool.range), b < 2 ^ 64) (hz : size ≠ 0) {n i : ℕ}
    {o : Option (MemoryResult ℕ × MemoryAllocator)} (hi : i ∈ B k)
    (hr : loop (m.allocateStep size alignOrder) n i = .ok o) :
    ∀ r m', o = some (r, m') → Allocated m L size alignOrder r m' := by
  refine loop_ok (I := (· ∈ B k)) (C := fun _ => True) (Q := fun o => ∀ r m', o = some (r, m') →
    Allocated m L size alignOrder r m') (fun i j hi _ hb => ?_) (fun i o hi _ hb => ?_) n i hi
    (throughout_true ..) hr
  · simp only [MemoryAllocator.allocateStep, Exec.bind_eq_ok] at hb
    obtain ⟨_ | a, ha, hb⟩ := hb
    · obtain ⟨A, C, hk⟩ := List.append_of_mem hi
      have hnext : m.pool.listNext i = C.head? := by
        have := (hk ▸ h.shape.lists.linked k).node.2
        simpa using this
      cases hC : C.head? with
      | none => simp [hnext, hC] at hb
      | some c =>
        have hc : c ∈ B k := by simp [hk, List.mem_of_head? hC]
        simp only [hnext, hC, Option.bind_some,
          MemoryEntryPool.getMemoryEntry_of_lt (h.shape.lists.valid hc).1] at hb
        cases hb
        exact hc
    · simp only [Exec.bind_eq_ok] at hb
      obtain ⟨_, _, hb⟩ := hb
      cases hb
  · have hiL : i ∈ L := ((h.shape.listed i k).mp hi).1
    have hle : m.pool.startAddress i ≤ m.pool.endAddress i :=
      h.separated.1 _ (List.mem_map_of_mem hiL)
    have hend : m.pool.endAddress i < 2 ^ 64 := hlt _ ⟨_, List.mem_map_of_mem hiL, hle, le_rfl⟩
    rintro r m' rfl
    simp only [MemoryAllocator.allocateStep, Exec.bind_eq_ok] at hb
    obtain ⟨_ | a, ha, hb⟩ := hb
    · simp only at hb
      split at hb <;> cases hb
    · obtain ⟨hdvd, hs, he⟩ := addressToAllocate_eq_some hle hend hz ha
      simp only [Exec.bind_eq_ok] at hb
      obtain ⟨⟨r₁, m₁⟩, hu, hb⟩ := hb
      cases hb
      obtain ⟨A, C, rfl⟩ := List.append_of_mem hiL
      simp only [MemoryAllocator.defineUsedMemory, if_true, MemoryAllocator.defineUsedRange, hz,
        if_false] at hu
      split_ifs at hu with hf
      · cases hu
        rfl
      · have huse := h.useRange hs he hz hu
        cases r₁ with
        | error e => exact huse
        | ok u =>
          change Allocated m _ size alignOrder (.ok a) m₁
          refine ⟨hdvd, fun b hb => ?_, huse⟩
          have := Set.mem_Ico.mp hb
          exact ⟨m.pool.range i, by simp, by simp only [MemoryEntryPool.range]; omega⟩

/-- `allocate`. -/
theorem Inv.allocate {alignOrder : ℕ} {r : MemoryResult ℕ} (h : Inv m L B)
    (hlt : ∀ b ∈ covered (L.map m.pool.range), b < 2 ^ 64)
    (hr : m.allocate size alignOrder = .ok (r, m')) : Allocated m L size alignOrder r m' := by
  unfold MemoryAllocator.allocate at hr
  split_ifs at hr with hz hf
  · cases hr
    rfl
  · cases hr
    rfl
  · suffices ∀ n k, m.allocateFrom size alignOrder n k = .ok (r, m') →
        Allocated m L size alignOrder r m' from this _ _ hr
    intro n
    induction n with
    | zero =>
      intro k hr
      cases hr
      rfl
    | succ n ih =>
      intro k hr
      unfold MemoryAllocator.allocateFrom at hr
      have hhead : m.freeList k = (B k).head? := h.shape.lists.head k
      cases hk : (B k).head? with
      | none =>
        rw [hhead, hk] at hr
        exact ih _ hr
      | some i =>
        have hi : i ∈ B k := List.mem_of_head? hk
        simp only [hhead, hk, MemoryEntryPool.getMemoryEntry_of_lt (h.shape.lists.valid hi).1,
          Exec.bind_eq_ok] at hr
        obtain ⟨_ | ⟨r₁, m₁⟩, hloop, hr⟩ := hr
        · exact ih _ hr
        · cases hr
          exact h.allocateStep_loop hlt hz hi hloop _ _ rfl

/-! ## The free bytes -/

namespace MemoryAllocator

/-- What a call did to the free bytes, if it did not fail. -/
def Changed {α : Type} (m : MemoryAllocator) (r : MemoryResult α) (m' : MemoryAllocator)
    (F : α → Set ℕ) : Prop :=
  match r with
  | .error _ => m' = m
  | .ok a => m'.Valid ∧ m'.freeBytes = F a

theorem Changed.valid {α : Type} {r : MemoryResult α} {F : α → Set ℕ} (h : m.Changed r m' F)
    (hm : m.Valid) : m'.Valid := by
  cases r with
  | error e => exact h ▸ hm
  | ok a => exact h.1

theorem Valid.free {r : MemoryResult Unit} (h : m.Valid)
    (htop : start + size ≤ 2 ^ 64) (hfree : Disjoint (Set.Ico start (start + size)) m.freeBytes)
    (hr : m.free start size = .ok (r, m')) :
    m.Changed r m' fun _ => m.freeBytes ∪ Set.Ico start (start + size) := by
  obtain ⟨⟨L, B, hinv⟩, hlt⟩ := h
  have hF := hinv.freeBytes_eq
  have := hinv.free (fun b hb hc => Set.disjoint_left.mp hfree hb (hF ▸ hc)) hr
  cases r with
  | error e => exact this
  | ok u =>
    obtain ⟨L', B', hinv', hcov⟩ := this
    have hF' : m'.freeBytes = m.freeBytes ∪ Set.Ico start (start + size) := by
      rw [hinv'.freeBytes_eq, hcov, hF]
    refine ⟨⟨⟨L', B', hinv'⟩, fun b hb => ?_⟩, hF'⟩
    rw [hF'] at hb
    rcases hb with hb | hb
    · exact hlt b hb
    · exact (Set.mem_Ico.mp hb).2.trans_le htop

theorem Valid.reserveMemory {r : MemoryResult Unit} (h : m.Valid)
    (hin : ∃ i ∈ m.chain, Set.Ico start (start + size) ⊆
      Set.Icc (m.pool.startAddress i) (m.pool.endAddress i))
    (hr : m.reserveMemory start size 0 = .ok (r, m')) :
    m.Changed r m' fun _ => m.freeBytes \ Set.Ico start (start + size) := by
  obtain ⟨⟨L, B, hinv⟩, hlt⟩ := h
  rw [hinv.chain_eq] at hin
  have := hinv.reserveMemory hin hr
  cases r with
  | error e => exact this
  | ok u =>
    obtain ⟨L', B', hinv', hcov⟩ := this
    have hF' : m'.freeBytes = m.freeBytes \ Set.Ico start (start + size) := by
      rw [hinv'.freeBytes_eq, hcov, hinv.freeBytes_eq]
    exact ⟨⟨⟨L', B', hinv'⟩, fun b hb => hlt b (hF' ▸ hb).1⟩, hF'⟩

theorem Valid.inside_of_reserveMemory (h : m.Valid)
    (hr : m.reserveMemory start size 0 = .ok (.ok (), m')) :
    ∃ i ∈ m.chain, Set.Ico start (start + size) ⊆
      Set.Icc (m.pool.startAddress i) (m.pool.endAddress i) := by
  obtain ⟨⟨L, B, hinv⟩, -⟩ := h
  rw [hinv.chain_eq]
  exact hinv.inside_of_reserveMemory hr

theorem Valid.allocate {alignOrder : ℕ} {r : MemoryResult ℕ} (h : m.Valid)
    (hr : m.allocate size alignOrder = .ok (r, m')) :
    (m.Changed r m' fun a => m.freeBytes \ Set.Ico a (a + size)) ∧
      ∀ a, r = .ok a → 2 ^ alignOrder ∣ a ∧ Set.Ico a (a + size) ⊆ m.freeBytes := by
  obtain ⟨⟨L, B, hinv⟩, hlt⟩ := h
  have := hinv.allocate (fun b hb => hlt b (hinv.freeBytes_eq ▸ hb)) hr
  cases r with
  | error e => exact ⟨this, by simp⟩
  | ok a =>
    obtain ⟨hdvd, hsub, L', B', hinv', hcov⟩ := this
    have hF' : m'.freeBytes = m.freeBytes \ Set.Ico a (a + size) := by
      rw [hinv'.freeBytes_eq, hcov, hinv.freeBytes_eq]
    refine ⟨⟨⟨⟨L', B', hinv'⟩, fun b hb => hlt b (hF' ▸ hb).1⟩, hF'⟩, ?_⟩
    rintro _ ⟨⟩
    exact ⟨hdvd, hinv.freeBytes_eq ▸ hsub⟩

theorem Valid.chained (h : m.Valid) : m.Chained := by
  obtain ⟨⟨L, B, hinv⟩, -⟩ := h
  exact hinv.chained

end MemoryAllocator

/-! ## Runs -/

/-- The bytes of a block, given by its address and its size. -/
def blockBytes (b : ℕ × ℕ) : Set ℕ :=
  Set.Ico b.1 (b.1 + b.2)

/-- The blocks in use after a call : `allocate` and `reserve_memory` add one. -/
def blocksAfterUse {α : Type} (live : List (ℕ × ℕ)) (block : α → ℕ × ℕ) (r : MemoryResult α) :
    List (ℕ × ℕ) :=
  match r with
  | .error _ => live
  | .ok a => block a :: live

/-- `free` ends the use of every block that has a byte in its range. -/
def blocksAfterFree (live : List (ℕ × ℕ)) (start size : ℕ) (r : MemoryResult Unit) :
    List (ℕ × ℕ) :=
  match r with
  | .error _ => live
  | .ok () => live.filter fun b => b.1 + b.2 ≤ start ∨ start + size ≤ b.1

/-- A run of calls from `new` in which no assertion and no overflow check fails, with the blocks
in use. -/
inductive AllocatorRun : MemoryAllocator → List (ℕ × ℕ) → Prop
  | new : AllocatorRun .new []
  | free {m m' : MemoryAllocator} {live : List (ℕ × ℕ)} {r : MemoryResult Unit} (start size : ℕ)
      (h : AllocatorRun m live) (hsize : 2 ≤ size) (htop : start + size < 2 ^ 64)
      (hfree : Disjoint (Set.Ico start (start + size)) m.freeBytes)
      (he : m.free start size = .ok (r, m')) : AllocatorRun m' (blocksAfterFree live start size r)
  | reserveMemory {m m' : MemoryAllocator} {live : List (ℕ × ℕ)} {r : MemoryResult Unit}
      (start size : ℕ) (h : AllocatorRun m live)
      (hin : ∃ i ∈ m.chain, Set.Ico start (start + size) ⊆
        Set.Icc (m.pool.startAddress i) (m.pool.endAddress i))
      (he : m.reserveMemory start size 0 = .ok (r, m')) :
      AllocatorRun m' (blocksAfterUse live (fun _ => (start, size)) r)
  | allocate {m m' : MemoryAllocator} {live : List (ℕ × ℕ)} {r : MemoryResult ℕ}
      (size alignOrder : ℕ) (h : AllocatorRun m live)
      (he : m.allocate size alignOrder = .ok (r, m')) :
      AllocatorRun m' (blocksAfterUse live (fun a => (a, size)) r)

/-- The blocks in use are disjoint from each other and from the free bytes. -/
def BlocksApart (F : Set ℕ) (live : List (ℕ × ℕ)) : Prop :=
  (live.Pairwise fun b c => Disjoint (blockBytes b) (blockBytes c)) ∧
    ∀ b ∈ live, Disjoint (blockBytes b) F

/-- A block of free bytes is taken. -/
theorem BlocksApart.use {α : Type} {live : List (ℕ × ℕ)} (block : α → ℕ × ℕ) {r : MemoryResult α}
    (h : BlocksApart m.freeBytes live)
    (hc : m.Changed r m' fun a => m.freeBytes \ blockBytes (block a))
    (hsub : ∀ a, r = .ok a → blockBytes (block a) ⊆ m.freeBytes) :
    BlocksApart m'.freeBytes (blocksAfterUse live block r) := by
  cases r with
  | error e =>
    have hm : m' = m := hc
    exact hm ▸ h
  | ok a =>
    have hF : m'.freeBytes = m.freeBytes \ blockBytes (block a) := hc.2
    refine ⟨List.pairwise_cons.mpr ⟨fun b hb => ?_, h.1⟩, fun b hb => ?_⟩
    · exact ((h.2 b hb).mono_right (hsub a rfl)).symm
    · rw [hF]
      rcases List.mem_cons.mp hb with rfl | hb
      · exact Set.disjoint_sdiff_right
      · exact (h.2 b hb).mono_right Set.sdiff_subset

/-- A range is given back. -/
theorem BlocksApart.free {live : List (ℕ × ℕ)} {r : MemoryResult Unit}
    (h : BlocksApart m.freeBytes live)
    (hc : m.Changed r m' fun _ => m.freeBytes ∪ Set.Ico start (start + size)) :
    BlocksApart m'.freeBytes (blocksAfterFree live start size r) := by
  cases r with
  | error e =>
    have hm : m' = m := hc
    exact hm ▸ h
  | ok u =>
    have hF : m'.freeBytes = m.freeBytes ∪ Set.Ico start (start + size) := hc.2
    refine ⟨h.1.filter _, fun b hb => ?_⟩
    obtain ⟨hb, hapart⟩ := List.mem_filter.mp hb
    simp only [decide_eq_true_eq] at hapart
    rw [hF, Set.disjoint_union_right]
    refine ⟨h.2 b hb, Set.disjoint_left.mpr fun x hx hx' => ?_⟩
    simp only [blockBytes, Set.mem_Ico] at hx hx'
    omega

theorem allocatorRun_invariant {live : List (ℕ × ℕ)} (h : AllocatorRun m live) :
    m.Valid ∧ BlocksApart m.freeBytes live := by
  induction h with
  | new => exact ⟨MemoryAllocator.valid_new, List.Pairwise.nil, by simp⟩
  | free start size _ hsize htop hfree he ih =>
    have hc := ih.1.free htop.le hfree he
    exact ⟨hc.valid ih.1, ih.2.free hc⟩
  | reserveMemory start size _ hin he ih =>
    have hc := ih.1.reserveMemory hin he
    refine ⟨hc.valid ih.1, ih.2.use _ hc fun _ _ b hb => ?_⟩
    obtain ⟨i, hi, hsub⟩ := hin
    exact ⟨_, List.mem_map_of_mem hi, hsub hb⟩
  | allocate size alignOrder _ he ih =>
    obtain ⟨hc, ha⟩ := ih.1.allocate he
    exact ⟨hc.valid ih.1, ih.2.use _ hc fun a hr => (ha a hr).2⟩

/-- In every state of a run the chain visits exactly the entries in use, in address order,
disjoint and never adjacent; the calls do to the free bytes what the abstract allocator does;
and no two blocks in use overlap. -/
theorem allocatorRun_refines {live : List (ℕ × ℕ)} (h : AllocatorRun m live) :
    m.Chained ∧
    (∀ size alignOrder a m', m.allocate size alignOrder = .ok (.ok a, m') →
      2 ^ alignOrder ∣ a ∧ Set.Ico a (a + size) ⊆ m.freeBytes ∧
        m'.freeBytes = m.freeBytes \ Set.Ico a (a + size)) ∧
    (∀ start size m', (∃ i ∈ m.chain, Set.Ico start (start + size) ⊆
        Set.Icc (m.pool.startAddress i) (m.pool.endAddress i)) →
      m.reserveMemory start size 0 = .ok (.ok (), m') →
        m'.freeBytes = m.freeBytes \ Set.Ico start (start + size)) ∧
    (∀ start size m', 2 ≤ size → start + size < 2 ^ 64 →
      Disjoint (Set.Ico start (start + size)) m.freeBytes →
        m.free start size = .ok (.ok (), m') →
          m'.freeBytes = m.freeBytes ∪ Set.Ico start (start + size)) ∧
    (live.Pairwise fun b c => Disjoint (blockBytes b) (blockBytes c)) ∧
      ∀ b ∈ live, Disjoint (blockBytes b) m.freeBytes := by
  obtain ⟨hv, hlive⟩ := allocatorRun_invariant h
  refine ⟨hv.chained, fun size o a m' he => ?_, fun start size m' hin he => ?_,
    fun start size m' hsize htop hfree he => ?_, hlive⟩
  · obtain ⟨hc, ha⟩ := hv.allocate he
    exact ⟨(ha a rfl).1, (ha a rfl).2, hc.2⟩
  · exact (hv.reserveMemory hin he).2
  · exact (hv.free htop.le hfree he).2

/-- The first range is freed, and one page is allocated from it. -/
theorem allocatorRun_refines_page : ∃ m : MemoryAllocator,
    AllocatorRun m [(0x1000, 0x1000)] ∧ m.Chained := by
  have h₁ := AllocatorRun.free (m := .new) 0x1000 0x3000 .new (by decide) (by decide)
    (by simp [Inv.new.freeBytes_eq, covered]) rfl
  have h₂ := AllocatorRun.allocate 0x1000 12 h₁ rfl
  exact ⟨_, h₂, (allocatorRun_refines h₂).1⟩

end MiniVisor
