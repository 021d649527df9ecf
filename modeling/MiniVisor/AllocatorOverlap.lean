import MiniVisor.AllocatorErrors
import MiniVisor.GlobalAllocator

/-!
# Freeing a range that is partly free

`define_free_memory` calls itself again, with another range, for a range that begins inside of an
entry or ends with one. `AddsRange` is what `free` should do with a range that has a free byte :
fail and change nothing that is free, or add the range and leave the chain in order. `TakesOverlap`
has one case for each position of the range in which it does (`free_overlap_iff`). In all other
cases two entries overlap afterwards, bytes of the range are lost, or the two bytes behind it become
free. -/

namespace MiniVisor

open Machine

namespace MemoryAllocator

variable (m : MemoryAllocator) (start size : ℕ)

/-- The chain visits the entries in use, each once, in address order and disjoint, and `previous` is
the inverse of `next`. -/
structure Ordered : Prop where
  first : m.firstEntry = m.chain.head?
  linked : Linked m.pool.next m.pool.previous none m.chain none
  visits : ∀ i, i ∈ m.chain ↔ i < poolSize ∧ m.pool.enabled i = true
  once : m.chain.Nodup
  sorted : m.chain.Pairwise fun i j => m.pool.endAddress i < m.pool.startAddress j

/-- `free` fails and leaves the free bytes alone, or it adds the range to them. -/
def AddsRange : Prop :=
  ∃ r m', m.free start size = .ok (r, m') ∧
    match r with
    | .error _ => m'.freeBytes = m.freeBytes
    | .ok () => m'.Ordered ∧ m'.freeBytes = m.freeBytes ∪ Set.Ico start (start + size)

/-- The positions of a range with a free byte in which `free` does so. -/
inductive TakesOverlap : Prop
  /-- All of the range is in one entry : it is refused. -/
  | inside {i : ℕ} (hi : i ∈ m.chain) (hs : m.pool.startAddress i ≤ start)
      (he : start + size ≤ m.pool.endAddress i + 1)
  /-- The range begins with the entry `y`, or inside of it if it is the last one, and ends in front
  of the next one. What is left is freed behind `y`. -/
  | behind {A C : List ℕ} {x y : ℕ} (hchain : m.chain = A ++ x :: y :: C)
      (hs : m.pool.startAddress y = start ∨
        C = [] ∧ m.pool.startAddress y < start ∧ start < m.pool.endAddress y)
      (he : m.pool.endAddress y + 1 < start + size)
      (hnext : ∀ z, C.head? = some z → start + size ≤ m.pool.startAddress z)
      (hcount : m.freeSize + (start + size - 1 - m.pool.endAddress y) + size < 2 ^ 64)
  /-- The range goes from the first entry to the second one. -/
  | joined {C : List ℕ} {x y : ℕ} (hchain : m.chain = x :: y :: C) (hs : m.pool.startAddress x ≤ start)
      (he : start ≤ m.pool.endAddress x) (hnext : m.pool.startAddress y = start + size)
      (hcount : m.freeSize + size + size < 2 ^ 64)
  /-- The range begins in front of the first entry and ends with it. What is left is freed in front
  of it. -/
  | before {C : List ℕ} {x : ℕ} (hchain : m.chain = x :: C) (hs : start < m.pool.startAddress x)
      (he : m.pool.endAddress x + 1 = start + size)
      (hcount : m.freeSize + (m.pool.startAddress x - start) + size < 2 ^ 64)
  /-- The range begins in a gap and goes into the next entry, and the pool has no entry for it. -/
  | fullGap {A C : List ℕ} {x y : ℕ} (hfull : m.Full) (hchain : m.chain = A ++ x :: y :: C)
      (hs : m.pool.endAddress x + 1 < start) (hs' : start < m.pool.startAddress y)
      (he : m.pool.startAddress y < start + size)
  /-- The range overlaps the first entry and ends neither with it nor at the next one, and the pool
  has no entry for it. -/
  | fullFirst {C : List ℕ} {x : ℕ} (hfull : m.Full) (hchain : m.chain = x :: C)
      (hs : m.pool.startAddress x < start + size) (he : start ≤ m.pool.endAddress x)
      (hne : m.pool.endAddress x + 1 ≠ start + size)
      (hnext : ∀ y, C.head? = some y → m.pool.startAddress y ≠ start + size)

end MemoryAllocator

section

variable {m m' : MemoryAllocator} {A C L : List ℕ} {B : ℕ → List ℕ} {key : ℕ → Option ℕ}
  {x y i start stop size : ℕ} {r : MemoryResult Unit}

theorem MemoryAllocator.Ordered.pairwise (h : m.Ordered) (hs : Shape m L B key) :
    (L.map m.pool.range).Pairwise fun r s => r.2 < s.1 := by
  rw [← hs.chain_eq]
  exact List.pairwise_map.mpr h.sorted

theorem Inv.ordered (h : Inv m L B) : m.Ordered := by
  have hc := h.chained
  exact ⟨hc.first, hc.linked, hc.visits, hc.once, hc.sorted.imp fun hij => by omega⟩

theorem Inv.start_le_end (h : Inv m L B) (hi : i ∈ L) : m.pool.startAddress i ≤ m.pool.endAddress i :=
  h.separated.1 _ (List.mem_map_of_mem hi)

/-- The entries in front of `x`. -/
theorem Inv.lt_start (h : Inv m (A ++ x :: C) B) (hi : i ∈ A) :
    m.pool.endAddress i + 1 < m.pool.startAddress x := by
  have hsep := h.separated
  simp only [List.map_append, List.map_cons] at hsep
  exact (separated_append.mp hsep).2.2 _ (List.mem_map_of_mem hi) (m.pool.range x) (by simp)

/-- The entries behind `x`. -/
theorem Inv.end_lt (h : Inv m (A ++ x :: C) B) (hi : i ∈ C) :
    m.pool.endAddress x + 1 < m.pool.startAddress i := by
  have hsep := h.separated
  simp only [List.map_append, List.map_cons] at hsep
  exact (separated_cons.mp (separated_append.mp hsep).2.1).2.2 _ (List.mem_map_of_mem hi)

theorem Inv.previous_eq_none (h : Inv m (x :: C) B) : m.pool.previous x = none :=
  h.shape.chain.previous (A := [])

theorem Inv.previous_ne_none (h : Inv m (A ++ x :: C) B) (hA : A ≠ []) : m.pool.previous x ≠ none := by
  rw [h.shape.chain.previous]
  exact fun hc => hA (List.getLast?_eq_none_iff.mp hc)

/-! ## The entry that is found -/

theorem entryBefore_of_some
    (hsearch : m.pool.searchEntryPreviousAddress m.firstEntry start = .ok (some x)) :
    m.entryBefore start = .ok (.ok x) := by
  rw [MemoryAllocator.entryBefore, hsearch]
  rfl

theorem Inv.entryBefore_of_none (h : Inv m (x :: C) B)
    (hsearch : m.pool.searchEntryPreviousAddress m.firstEntry start = .ok none) :
    m.entryBefore start = .ok (.ok x) := by
  have hx := h.shape.chain.lt (show x ∈ x :: C by simp)
  rw [MemoryAllocator.entryBefore, hsearch, Exec.ok_bind]
  dsimp only
  rw [h.shape.chain.head]
  simp only [List.head?_cons, MemoryEntryPool.getMemoryEntry_of_lt hx, Exec.pure_eq_ok]

/-- No entry starts in front of the address. -/
theorem Inv.entryBefore_first (h : Inv m (x :: C) B) (hx : start ≤ m.pool.startAddress x) :
    m.entryBefore start = .ok (.ok x) := by
  refine h.entryBefore_of_none (h.shape.chain.searchEntryPreviousAddress (A := []) (by simp) ?_)
  rintro c ⟨⟩
  exact hx

/-- The last entry that starts in front of the address, unless it is the last of all. -/
theorem Inv.entryBefore_at (h : Inv m (A ++ x :: C) B) (hx : m.pool.startAddress x < start)
    (hC : ∀ c, C.head? = some c → start ≤ m.pool.startAddress c)
    (hend : C = [] → A ≠ [] → m.pool.endAddress x ≤ start) : m.entryBefore start = .ok (.ok x) := by
  have hsearch : m.pool.searchEntryPreviousAddress m.firstEntry start = _ :=
    h.shape.chain.searchEntryPreviousAddress_eq (fun i hi => ?_) hC
  · split_ifs at hsearch with hlast
    · obtain ⟨rfl, hlt⟩ := hlast
      have hA : A = [] := by
        by_contra hA
        have := hend rfl hA
        omega
      subst hA
      exact Inv.entryBefore_of_none h hsearch
    · exact entryBefore_of_some hsearch
  · rcases List.mem_append.mp hi with hi | hi
    · have h1 := h.lt_start hi
      have h2 := h.start_le_end (List.mem_append_left _ hi)
      omega
    · rwa [List.mem_singleton.mp hi]

/-- The one before the last entry, if that goes on behind the address. -/
theorem Inv.entryBefore_prev (h : Inv m (A ++ [x, y]) B) (hy : m.pool.startAddress y < start)
    (hend : start < m.pool.endAddress y) : m.entryBefore start = .ok (.ok x) := by
  have h' : Inv m (A ++ [x] ++ [y]) B := by simpa using h
  have hsearch : m.pool.searchEntryPreviousAddress m.firstEntry start = _ :=
    h'.shape.chain.searchEntryPreviousAddress_eq (fun i hi => ?_) (by simp)
  · rw [if_pos ⟨rfl, hend⟩, List.getLast?_concat] at hsearch
    exact entryBefore_of_some hsearch
  · rcases List.mem_append.mp hi with hi | hi
    · have h1 := h'.lt_start hi
      have h2 := h'.start_le_end (List.mem_append_left _ hi)
      omega
    · rwa [List.mem_singleton.mp hi]

/-- Where the entries are that start in front of an address. -/
theorem Inv.position (h : Inv m L B) (hL : L ≠ []) (start : ℕ) :
    (∃ x C, L = x :: C ∧ start ≤ m.pool.startAddress x) ∨
    (∃ A x C, L = A ++ x :: C ∧ m.pool.startAddress x < start ∧
      (∀ c, C.head? = some c → start ≤ m.pool.startAddress c) ∧
      (C = [] → A ≠ [] → m.pool.endAddress x ≤ start)) ∨
    ∃ A x y, L = A ++ [x, y] ∧ m.pool.startAddress y < start ∧ start < m.pool.endAddress y := by
  obtain ⟨D, C, rfl, hD, hC⟩ : ∃ D C, L = D ++ C ∧ (∀ i ∈ D, m.pool.startAddress i < start) ∧
      ∀ c, C.head? = some c → start ≤ m.pool.startAddress c := by
    refine ⟨L.takeWhile fun i => m.pool.startAddress i < start,
      L.dropWhile fun i => m.pool.startAddress i < start, List.takeWhile_append_dropWhile.symm,
      fun i hi => ?_, fun c hc => ?_⟩
    · simpa using List.all_eq_true.mp (List.all_takeWhile (p := _)) i hi
    · have := List.head?_dropWhile_not (fun i => m.pool.startAddress i < start) L
      rw [hc] at this
      simpa using this
  rcases List.eq_nil_or_concat D with rfl | ⟨A, x, rfl⟩
  · obtain ⟨x, C, rfl⟩ := List.exists_cons_of_ne_nil hL
    exact .inl ⟨x, C, rfl, hC x rfl⟩
  · have hx := hD x (by simp)
    simp only [List.concat_eq_append, List.append_assoc, List.cons_append, List.nil_append]
    by_cases hend : C = [] → A ≠ [] → m.pool.endAddress x ≤ start
    · exact .inr (.inl ⟨A, x, C, rfl, hx, hC, hend⟩)
    · push Not at hend
      obtain ⟨rfl, hA, hend⟩ := hend
      rcases List.eq_nil_or_concat A with rfl | ⟨A, w, rfl⟩
      · exact absurd rfl hA
      · exact .inr (.inr ⟨A, w, x, by simp, hx, hend⟩)

/-! ## What is done at it -/

section Range

variable {again : MemoryAllocator → ℕ → ℕ → Exec (MemoryResult Unit × MemoryAllocator)} {c : ℕ}

theorem defineFreeMemory_at (hentry : m.entryBefore start = .ok (.ok x)) (hz : size ≠ 0)
    (hstop : stop + 1 = start + size) (htop : stop + 1 < 2 ^ 64) (fuel : ℕ) :
    MemoryAllocator.defineFreeMemory (fuel + 1) m start size =
      m.freeRange (MemoryAllocator.defineFreeMemory fuel) x start stop size := by
  obtain rfl : stop = start + size - 1 := by omega
  rw [MemoryAllocator.defineFreeMemory, if_neg hz, hentry, Exec.ok_bind]
  dsimp only
  rw [getEndAddress, checkedAdd_of_lt (by omega), Exec.ok_bind, checkedSub_of_le (by omega), Exec.ok_bind]

theorem freeRange_inside (hs : m.pool.startAddress x ≤ start) (he : stop ≤ m.pool.endAddress x) :
    m.freeRange again x start stop size = .ok (.error .invalidRequest, m) :=
  if_pos ⟨hs, he⟩

theorem freeRange_beside (hout : ¬(m.pool.startAddress x ≤ start ∧ stop ≤ m.pool.endAddress x))
    (hfirst : start ≤ m.pool.endAddress x → m.pool.previous x = none) (hne : m.pool.endAddress x ≠ stop) :
    m.freeRange again x start stop size = m.freeBeside again x start stop size := by
  rw [MemoryAllocator.freeRange, if_neg hout, if_neg fun hc => hc.2 (hfirst hc.1), if_neg hne]

/-- The range starts inside of an entry that is not the first one. -/
theorem freeRange_tail (hs : start ≤ m.pool.endAddress x) (he : m.pool.endAddress x < stop)
    (hprev : m.pool.previous x ≠ none) (htop : stop + 1 < 2 ^ 64) (htwo : 2 ≤ m.pool.endAddress x) :
    m.freeRange again x start stop size =
      again m (m.pool.endAddress x + 1) (stop - m.pool.endAddress x + 2) := by
  rw [MemoryAllocator.freeRange, if_neg fun hc => absurd hc.2 (not_le.mpr he), if_pos ⟨hs, hprev⟩,
    checkedAdd_of_lt (by omega), Exec.ok_bind, checkedSub_of_le he.le, Exec.ok_bind,
    checkedAdd_of_lt (by omega), Exec.ok_bind]

/-- The next entry starts in front of the range. -/
theorem Inv.freeBeside_again (h : Inv m (A ++ x :: c :: C) B)
    (hlt : ∀ i ∈ A ++ x :: c :: C, m.pool.endAddress i + 1 < 2 ^ 64) (htop : stop + 1 < 2 ^ 64)
    (hc : m.pool.startAddress c ≤ start) (hs : start ≤ stop) :
    m.freeBeside again x start stop size =
      if stop ≤ m.pool.endAddress c then .ok (.error .invalidRequest, m)
      else again m (m.pool.endAddress c + 1) (stop - m.pool.endAddress c) := by
  have hxc := h.end_lt (show c ∈ c :: C by simp)
  have hxle := h.start_le_end (show x ∈ A ++ x :: c :: C by simp)
  have hcend := hlt c (by simp)
  rw [MemoryAllocator.freeBeside, MemoryEntryPool.getSize_of_sized (h.sized hlt x (by simp)), Exec.ok_bind,
    checkedAdd_of_lt (hlt x (by simp)), Exec.ok_bind, MemoryAllocator.extendEnd, if_neg (by omega),
    Exec.pure_eq_ok, Exec.ok_bind]
  dsimp only
  rw [extendStart_of_ne htop fun _ => by omega, Exec.ok_bind]
  dsimp only
  rw [h.shape.chain.getNextEntry, List.head?_cons, MemoryAllocator.freeWithNext, if_pos hc,
    assert_of rfl, Exec.ok_bind]
  split_ifs with hin
  · rfl
  · rw [checkedAdd_of_lt hcend, Exec.ok_bind, checkedSub_of_le (by omega), Exec.ok_bind]

/-- The range ends where the next entry starts, and does not touch `x`. -/
theorem Inv.freeBeside_join (h : Inv m (A ++ x :: c :: C) B)
    (hlt : ∀ i ∈ A ++ x :: c :: C, m.pool.endAddress i + 1 < 2 ^ 64) (htop : stop + 1 < 2 ^ 64)
    (hs : start ≤ stop) (hleft : m.pool.endAddress x + 1 ≠ start) (hc : m.pool.startAddress c = stop + 1) :
    m.freeBeside again x start stop size =
      (MemoryAllocator.resizeEntry
        { m with pool := m.pool.withRange x (m.pool.startAddress x) (m.pool.endAddress x) } c start
          (m.pool.endAddress c) >>= fun m₁ => m₁.mergeNext x c (m.pool.endAddress x + 1) true >>= fun m₂ =>
            m₂.finishExtended x (m.pool.size x) size) := by
  have hxc := h.end_lt (show c ∈ c :: C by simp)
  have hxle := h.start_le_end (show x ∈ A ++ x :: c :: C by simp)
  have hsame : m.pool.withRange x (m.pool.startAddress x) (m.pool.endAddress x) = m.pool := by
    simp [MemoryEntryPool.withRange]
  rw [hsame, MemoryAllocator.freeBeside, MemoryEntryPool.getSize_of_sized (h.sized hlt x (by simp)),
    Exec.ok_bind, checkedAdd_of_lt (hlt x (by simp)), Exec.ok_bind, MemoryAllocator.extendEnd,
    if_neg hleft,
    Exec.pure_eq_ok, Exec.ok_bind]
  dsimp only
  rw [extendStart_of_ne htop fun _ => by omega, Exec.ok_bind]
  dsimp only
  rw [h.shape.chain.getNextEntry, List.head?_cons, freeWithNext_of_touch htop (by omega) hc]

/-- The range starts where `x` ends and goes into the next entry : only `x` grows. -/
theorem Inv.freeBeside_over (h : Inv m (A ++ x :: c :: C) B)
    (hlt : ∀ i ∈ A ++ x :: c :: C, m.pool.endAddress i + 1 < 2 ^ 64) (htop : stop + 1 < 2 ^ 64)
    (hleft : m.pool.endAddress x + 1 = start) (hc : m.pool.startAddress c ≤ stop) :
    m.freeBeside again x start stop size = MemoryAllocator.finishExtended
      { m with pool := m.pool.withRange x (m.pool.startAddress x) stop } x (m.pool.size x) size := by
  have hxc := h.end_lt (show c ∈ c :: C by simp)
  have hxle := h.start_le_end (show x ∈ A ++ x :: c :: C by simp)
  have hcx : c ≠ x := by
    rintro rfl
    omega
  have hcs : (m.pool.withRange x (m.pool.startAddress x) stop).startAddress c = m.pool.startAddress c :=
    Function.update_of_ne hcx _ _
  have hxe : (m.pool.withRange x (m.pool.startAddress x) stop).endAddress x = stop :=
    Function.update_self ..
  have hxs : (m.pool.withRange x (m.pool.startAddress x) stop).startAddress x = m.pool.startAddress x :=
    Function.update_self ..
  have hnext : (m.pool.withRange x (m.pool.startAddress x) stop).getNextEntry x = some c :=
    h.shape.chain.getNextEntry
  rw [MemoryAllocator.freeBeside, MemoryEntryPool.getSize_of_sized (h.sized hlt x (by simp)), Exec.ok_bind,
    checkedAdd_of_lt (hlt x (by simp)), Exec.ok_bind, MemoryAllocator.extendEnd, if_pos hleft,
    MemoryEntryPool.setRange, assert_of (by omega), Exec.ok_bind, Exec.pure_eq_ok, Exec.ok_bind,
    Exec.pure_eq_ok, Exec.ok_bind]
  dsimp only
  rw [extendStart_of_ne htop fun _ => by omega, Exec.ok_bind]
  dsimp only
  rw [hnext, freeWithNext_of_apart htop (by simpa only [hxe] using htop) ?_, if_pos rfl]
  rintro _ ⟨⟩
  simp only [hcs, hxe]
  omega

end Range

/-! ## The calls it makes -/

section Calls

variable (fuel : ℕ) (hstop : stop + 1 = start + size) (htop : stop + 1 < 2 ^ 64) (hz : 2 ≤ size)

include hstop htop hz

/-- All of the range is in one entry. -/
theorem Inv.defineFreeMemory_inside (h : Inv m L B) (hlt : ∀ i ∈ L, m.pool.endAddress i + 1 < 2 ^ 64)
    (hi : i ∈ L) (hs : m.pool.startAddress i ≤ start) (he : stop ≤ m.pool.endAddress i) :
    MemoryAllocator.defineFreeMemory (fuel + 1) m start size = .ok (.error .invalidRequest, m) := by
  obtain ⟨x, C, rfl, hx⟩ | ⟨A, x, C, rfl, hx, hC, hend⟩ | ⟨A, x, y, rfl, hy, hend⟩ :=
    h.position (List.ne_nil_of_mem hi) start
  · rw [defineFreeMemory_at (h.entryBefore_first hx) (by omega) hstop htop]
    rcases List.mem_cons.mp hi with rfl | hi
    · exact freeRange_inside hs he
    · have h1 := Inv.end_lt (A := []) h hi
      have h2 := h.start_le_end (show x ∈ x :: C by simp)
      omega
  · rw [defineFreeMemory_at (h.entryBefore_at hx hC hend) (by omega) hstop htop]
    rcases List.mem_append.mp hi with hi | hi
    · have := h.lt_start hi
      omega
    rcases List.mem_cons.mp hi with rfl | hi
    · exact freeRange_inside hs he
    · obtain ⟨c, C, rfl⟩ := List.exists_cons_of_ne_nil (List.ne_nil_of_mem hi)
      have h' : Inv m (A ++ [x] ++ c :: C) B := by simpa using h
      have h1 := h.end_lt (show c ∈ c :: C by simp)
      have h2 := hC c rfl
      -- Only the next entry starts with the range.
      obtain rfl : i = c := by
        rcases List.mem_cons.mp hi with hi | hi
        · exact hi
        · have h3 := h'.end_lt hi
          have h4 := h'.start_le_end (show c ∈ A ++ [x] ++ c :: C by simp)
          omega
      rw [freeRange_beside (by omega) (fun hc => by omega) (by omega),
        h.freeBeside_again hlt htop hs (by omega), if_pos he]
  · have h' : Inv m (A ++ [x] ++ [y]) B := by simpa using h
    have h1 := h.end_lt (show y ∈ [y] by simp)
    obtain rfl : i = y := by
      simp only [List.mem_append, List.mem_cons, List.not_mem_nil, or_false] at hi
      rcases hi with hi | rfl | hi
      · have := h.lt_start hi
        have := h.start_le_end (show x ∈ A ++ [x, y] by simp)
        omega
      · omega
      · exact hi
    rw [defineFreeMemory_at (h.entryBefore_prev hy hend) (by omega) hstop htop,
      freeRange_beside (by omega) (fun hc => by omega) (by omega),
      h.freeBeside_again hlt htop hs (by omega), if_pos he]

/-- The range begins with `y`, or inside of it if it is the last entry. What is left is freed behind
`y`. -/
theorem Inv.defineFreeMemory_behind (h : Inv m (A ++ x :: y :: C) B)
    (hlt : ∀ i ∈ A ++ x :: y :: C, m.pool.endAddress i + 1 < 2 ^ 64)
    (hs : m.pool.startAddress y = start ∨ C = [] ∧ m.pool.startAddress y < start ∧
      start < m.pool.endAddress y)
    (he : m.pool.endAddress y < stop) :
    MemoryAllocator.defineFreeMemory (fuel + 2) m start size =
      m.freeBeside (MemoryAllocator.defineFreeMemory fuel) y (m.pool.endAddress y + 1) stop
        (stop - m.pool.endAddress y) := by
  have h' : Inv m (A ++ [x] ++ y :: C) B := by simpa using h
  have hxy := h.end_lt (show y ∈ y :: C by simp)
  have hxle := h.start_le_end (show x ∈ A ++ x :: y :: C by simp)
  have hyle := h.start_le_end (show y ∈ A ++ x :: y :: C by simp)
  have hentry : m.entryBefore start = .ok (.ok x) := by
    obtain hs | ⟨rfl, hs, hend⟩ := hs
    · refine h.entryBefore_at (by omega) ?_ (by simp)
      rintro c ⟨⟩
      exact hs.ge
    · exact h.entryBefore_prev hs hend
  have hentry' : m.entryBefore (m.pool.endAddress y + 1) = .ok (.ok y) := by
    refine h'.entryBefore_at (by omega) (fun c hc => ?_) fun _ _ => by omega
    have := h'.end_lt (List.mem_of_head? hc)
    omega
  rw [defineFreeMemory_at hentry (by omega) hstop htop,
    freeRange_beside (by omega) (fun hc => by omega) (by omega),
    h.freeBeside_again hlt htop (by omega) (by omega), if_neg (by omega),
    defineFreeMemory_at hentry' (by omega)
      (show stop + 1 = m.pool.endAddress y + 1 + (stop - m.pool.endAddress y) by omega) htop,
    freeRange_beside (by omega) (fun hc => by omega) (by omega)]

/-- The range begins in the tail of `x`, which is not the first entry. It is freed behind `x`, and
two bytes more than there are. -/
theorem Inv.defineFreeMemory_tail (h : Inv m (A ++ x :: C) B) (hA : A ≠ [])
    (hs : m.pool.startAddress x < start) (hmid : start ≤ m.pool.endAddress x)
    (he : m.pool.endAddress x < stop) (hend : C = [] → m.pool.endAddress x ≤ start) :
    MemoryAllocator.defineFreeMemory (fuel + 2) m start size =
      if stop + 3 < 2 ^ 64 then m.freeBeside (MemoryAllocator.defineFreeMemory fuel) x
        (m.pool.endAddress x + 1) (stop + 2) (stop - m.pool.endAddress x + 2)
      else .error .overflow := by
  have hC : ∀ c, C.head? = some c → m.pool.endAddress x + 1 < m.pool.startAddress c :=
    fun c hc => h.end_lt (List.mem_of_head? hc)
  have hentry : m.entryBefore start = .ok (.ok x) :=
    h.entryBefore_at hs (fun c hc => by have := hC c hc; omega) fun hnil _ => hend hnil
  have hentry' : m.entryBefore (m.pool.endAddress x + 1) = .ok (.ok x) :=
    h.entryBefore_at (by omega) (fun c hc => (hC c hc).le) fun _ _ => by omega
  have hprev := h.previous_ne_none hA
  have htwo : 2 ≤ m.pool.endAddress x := by
    obtain ⟨a, A, rfl⟩ := List.exists_cons_of_ne_nil hA
    have := h.lt_start (show a ∈ a :: A by simp)
    omega
  rw [defineFreeMemory_at hentry (by omega) hstop htop, freeRange_tail hmid he hprev htop htwo]
  split_ifs with htop'
  · rw [defineFreeMemory_at hentry' (by omega)
        (show stop + 2 + 1 = m.pool.endAddress x + 1 + (stop - m.pool.endAddress x + 2) by omega) htop',
      freeRange_beside (by omega) (fun hc => by omega) (by omega)]
  · rw [MemoryAllocator.defineFreeMemory, if_neg (by omega), hentry', Exec.ok_bind]
    dsimp only
    rw [getEndAddress, checkedAdd, if_neg (by omega), Exec.error_bind, Exec.error_bind]

/-- The range begins in front of the first entry and ends with it. -/
theorem Inv.defineFreeMemory_front (h : Inv m (x :: C) B)
    (hlt : ∀ i ∈ x :: C, m.pool.endAddress i + 1 < 2 ^ 64) (hs : start < m.pool.startAddress x)
    (he : m.pool.endAddress x = stop) :
    MemoryAllocator.defineFreeMemory (fuel + 2) m start size =
      m.freeBeside (MemoryAllocator.defineFreeMemory fuel) x start (m.pool.startAddress x - 1)
        (m.pool.startAddress x - start) := by
  have hentry := h.entryBefore_first hs.le
  have hxle := h.start_le_end (show x ∈ x :: C by simp)
  have hprev := h.previous_eq_none
  have hleft : size - m.pool.size x = m.pool.startAddress x - start := by
    simp only [MemoryEntryPool.size]
    omega
  rw [defineFreeMemory_at hentry (by omega) hstop htop, MemoryAllocator.freeRange, if_neg (by omega),
    if_neg fun hc => hc.2 hprev, if_pos he, MemoryEntryPool.getSize_of_sized (h.sized hlt x (by simp)),
    Exec.ok_bind, checkedSub_of_le (by simp only [MemoryEntryPool.size]; omega), Exec.ok_bind, hleft,
    defineFreeMemory_at hentry (by omega)
      (show m.pool.startAddress x - 1 + 1 = start + (m.pool.startAddress x - start) by omega) (by omega),
    freeRange_beside (by omega) (fun _ => hprev) (by omega)]

/-- The range becomes a new entry. -/
theorem Inv.defineFreeMemory_insert (h : Inv m (A ++ x :: C) B)
    (hlt : ∀ i ∈ A ++ x :: C, m.pool.endAddress i + 1 < 2 ^ 64)
    (hentry : m.entryBefore start = .ok (.ok x))
    (hout : ¬(m.pool.startAddress x ≤ start ∧ stop ≤ m.pool.endAddress x))
    (hfirst : start ≤ m.pool.endAddress x → A = []) (hne : m.pool.endAddress x ≠ stop)
    (hleft : m.pool.endAddress x + 1 ≠ start) (hright : A = [] → m.pool.startAddress x ≠ stop + 1)
    (hnext : ∀ c, C.head? = some c → start < m.pool.startAddress c ∧ m.pool.startAddress c ≠ stop + 1) :
    MemoryAllocator.defineFreeMemory (fuel + 1) m start size =
      m.insertEntry x (m.pool.size x) start stop size C.head? := by
  rw [defineFreeMemory_at hentry (by omega) hstop htop, freeRange_beside hout (fun hc => ?_) hne,
    h.freeBeside_insert hlt htop hleft hright hnext]
  obtain rfl := hfirst hc
  exact Inv.previous_eq_none h

end Calls

/-! ## Where it goes well -/

/-- `define_free_memory` has failed and changed nothing, or the bytes `D` are free as well. -/
def Took (m : MemoryAllocator) (D : Set ℕ) (size : ℕ)
    (x : Exec (MemoryResult Unit × MemoryAllocator)) : Prop :=
  (∃ e, x = .ok (.error e, m)) ∨ ∃ m', x = .ok (.ok (), m') ∧ m'.freeSize + size < 2 ^ 64 ∧
    (∃ L' B', Inv m' L' B') ∧ m'.freeBytes = m.freeBytes ∪ D

/-- A range that is left is freed, and the rest of `D` is free already. -/
theorem Inv.took_of_freed {D E : Set ℕ} {y : Exec (MemoryResult Unit × MemoryAllocator)} (h : Inv m L B)
    (hr : y = .ok (.ok (), m')) (hfreed : FreedRange m L E (.ok ()) m')
    (hcount : m'.freeSize + size < 2 ^ 64)
    (hD : ∀ b, b ∈ m.freeBytes ∨ b ∈ E ↔ b ∈ m.freeBytes ∨ b ∈ D) : Took m D size y := by
  obtain ⟨L', B', hinv, hcov⟩ := hfreed
  refine .inr ⟨m', hr, hcount, ⟨L', B', hinv⟩, Set.ext fun b => ?_⟩
  rw [hinv.freeBytes_eq, hcov, ← h.freeBytes_eq]
  exact hD b

theorem Inv.mem_freeBytes (h : Inv m L B) (hi : i ∈ L) {b : ℕ} (hs : m.pool.startAddress i ≤ b)
    (he : b ≤ m.pool.endAddress i) : b ∈ m.freeBytes :=
  h.freeBytes_eq ▸ ⟨_, List.mem_map_of_mem hi, hs, he⟩

section

variable (hz : 2 ≤ size) (hstop : stop + 1 = start + size) (htop : stop + 1 < 2 ^ 64) (fuel : ℕ)

include hz hstop htop

/-- What the range leaves behind the entry `y` is freed. -/
theorem Inv.took_behind (h : Inv m (A ++ x :: y :: C) B)
    (hlt : ∀ i ∈ A ++ x :: y :: C, m.pool.endAddress i + 1 < 2 ^ 64)
    (hs : m.pool.startAddress y = start ∨
      C = [] ∧ m.pool.startAddress y < start ∧ start < m.pool.endAddress y)
    (he : m.pool.endAddress y + 1 < start + size)
    (hnext : ∀ z, C.head? = some z → start + size ≤ m.pool.startAddress z)
    (hcount : m.freeSize + (start + size - 1 - m.pool.endAddress y) + size < 2 ^ 64) :
    Took m (Set.Ico start (start + size)) size
      (MemoryAllocator.defineFreeMemory (fuel + 2) m start size) := by
  have h' : Inv m (A ++ [x] ++ y :: C) B := by simpa using h
  have hC : ∀ c ∈ C, stop < m.pool.startAddress c := by
    intro c hc
    obtain ⟨z, C, rfl⟩ := List.exists_cons_of_ne_nil (List.ne_nil_of_mem hc)
    have h1 := hnext z rfl
    rcases List.mem_cons.mp hc with rfl | hc
    · omega
    · have h'' : Inv m (A ++ [x] ++ [y] ++ z :: C) B := by simpa using h
      have h2 := h''.end_lt hc
      have h3 := h''.start_le_end (show z ∈ A ++ [x] ++ [y] ++ z :: C by simp)
      omega
  have hle := h.start_le_end (show y ∈ A ++ x :: y :: C by simp)
  obtain ⟨m', hm', hfs⟩ : ∃ m', m.freeBeside (MemoryAllocator.defineFreeMemory fuel) y
      (m.pool.endAddress y + 1) stop (stop - m.pool.endAddress y) = .ok (.ok (), m') ∧
        m'.freeSize = m.freeSize + (stop - m.pool.endAddress y) :=
    h'.freeAfter_touch (by simpa using hlt) (by omega) hC (by omega) htop (by omega) (.inl rfl)
  have hfreed := h'.freeAfter (by omega) hC (by omega) (by omega) hm'
  rw [h.defineFreeMemory_behind fuel hstop htop hz hlt hs (by omega)]
  refine h'.took_of_freed hm' hfreed (by omega) fun b => ?_
  have hy : m.pool.startAddress y ≤ b → b ≤ m.pool.endAddress y → b ∈ m.freeBytes :=
    h.mem_freeBytes (by simp)
  have hsy : m.pool.startAddress y ≤ start := by omega
  simp only [Set.mem_Ico]
  constructor
  · rintro (hb | hb)
    · exact .inl hb
    · exact .inr (by omega)
  · rintro (hb | hb)
    · exact .inl hb
    · by_cases hby : b ≤ m.pool.endAddress y
      · exact .inl (hy (by omega) hby)
      · exact .inr (by omega)

/-- The range and the first two entries become one. -/
theorem Inv.took_joined (h : Inv m (x :: y :: C) B)
    (hlt : ∀ i ∈ x :: y :: C, m.pool.endAddress i + 1 < 2 ^ 64)
    (hs : m.pool.startAddress x ≤ start) (he : start ≤ m.pool.endAddress x)
    (hnext : m.pool.startAddress y = start + size) (hcount : m.freeSize + size + size < 2 ^ 64) :
    Took m (Set.Ico start (start + size)) size
      (MemoryAllocator.defineFreeMemory (fuel + 2) m start size) := by
  have hxy := Inv.end_lt (A := []) h (show y ∈ y :: C by simp)
  have hprev := Inv.previous_eq_none h
  have hentry : m.entryBefore start = .ok (.ok x) := by
    obtain hlt | hge := lt_or_ge (m.pool.startAddress x) start
    · refine Inv.entryBefore_at (A := []) h hlt ?_ (by simp)
      rintro c ⟨⟩
      omega
    · exact h.entryBefore_first hge
  have hs' : start < m.pool.startAddress y := by omega
  have hafter : start ≤ m.pool.endAddress x + 1 := by omega
  have hsum : m.freeSize + size < 2 ^ 64 := by omega
  obtain ⟨m', hm', hfs⟩ := Inv.growBoth_returns (A := []) (e := m.pool.endAddress x) h hlt hs' (by omega)
    (by omega) hafter hsum
  obtain ⟨m₁, hm₁, hr⟩ := Exec.bind_eq_ok.mp hm'
  obtain ⟨m₂, hm₂, hr⟩ := Exec.bind_eq_ok.mp hr
  have hyle := h.start_le_end (show y ∈ x :: y :: C by simp)
  have hfreed := Inv.growBoth (A := []) h hs (by omega) hnext (by omega) (by omega) hm₁ hm₂ hr
  rw [defineFreeMemory_at hentry (by omega) hstop htop, freeRange_beside (by omega) (fun _ => hprev)
    (by omega),
    Inv.freeBeside_join (A := []) h hlt htop (by omega) (by omega) (by omega)]
  exact h.took_of_freed hm' hfreed (by omega) fun b => Iff.rfl

/-- What the range leaves in front of the first entry is freed. -/
theorem Inv.took_before (h : Inv m (x :: C) B) (hlt : ∀ i ∈ x :: C, m.pool.endAddress i + 1 < 2 ^ 64)
    (hs : start < m.pool.startAddress x) (he : m.pool.endAddress x + 1 = start + size)
    (hcount : m.freeSize + (m.pool.startAddress x - start) + size < 2 ^ 64) :
    Took m (Set.Ico start (start + size)) size
      (MemoryAllocator.defineFreeMemory (fuel + 2) m start size) := by
  have hxle := h.start_le_end (show x ∈ x :: C by simp)
  obtain ⟨m', hm', hfs⟩ : ∃ m', m.freeBeside (MemoryAllocator.defineFreeMemory fuel) x start
      (m.pool.startAddress x - 1) (m.pool.startAddress x - start) = .ok (.ok (), m') ∧
        m'.freeSize = m.freeSize + (m.pool.startAddress x - start) :=
    h.freeBefore_touch hlt (by omega) (by omega) (by omega)
  have hfreed := h.freeBefore (by omega) (by omega) hm'
  rw [h.defineFreeMemory_front fuel hstop htop hz hlt hs (by omega)]
  refine h.took_of_freed hm' hfreed (by omega) fun b => ?_
  have hx : m.pool.startAddress x ≤ b → b ≤ m.pool.endAddress x → b ∈ m.freeBytes :=
    h.mem_freeBytes (by simp)
  simp only [Set.mem_Ico]
  constructor
  · rintro (hb | hb)
    · exact .inl hb
    · exact .inr (by omega)
  · rintro (hb | hb)
    · exact .inl hb
    · by_cases hbx : b < m.pool.startAddress x
      · exact .inr (by omega)
      · exact .inl (hx (by omega) (by omega))

/-- The pool has no entry for a range that is not in the first one. -/
theorem Inv.took_fullFirst (h : Inv m (x :: C) B) (hlt : ∀ i ∈ x :: C, m.pool.endAddress i + 1 < 2 ^ 64)
    (hfull : m.Full) (hs : m.pool.startAddress x < start + size) (he : start ≤ m.pool.endAddress x)
    (hne : m.pool.endAddress x + 1 ≠ start + size)
    (hnext : ∀ y, C.head? = some y → m.pool.startAddress y ≠ start + size) :
    Took m (Set.Ico start (start + size)) size
      (MemoryAllocator.defineFreeMemory (fuel + 2) m start size) := by
  by_cases hout : m.pool.startAddress x ≤ start ∧ stop ≤ m.pool.endAddress x
  · exact .inl ⟨_, h.defineFreeMemory_inside (fuel + 1) hstop htop hz hlt (by simp) hout.1 hout.2⟩
  · have hC : ∀ c, C.head? = some c → m.pool.endAddress x + 1 < m.pool.startAddress c :=
      fun c hc => Inv.end_lt (A := []) h (List.mem_of_head? hc)
    have hentry : m.entryBefore start = .ok (.ok x) := by
      obtain hlt | hge := lt_or_ge (m.pool.startAddress x) start
      · exact Inv.entryBefore_at (A := []) h hlt (fun c hc => by have := hC c hc; omega) (by simp)
      · exact h.entryBefore_first hge
    refine .inl ⟨_, (Inv.defineFreeMemory_insert (A := []) (fuel + 1) hstop htop hz h hlt hentry hout
      (fun _ => rfl) (by omega) (by omega) (fun _ => by omega) fun c hc => ?_).trans
      (insertEntry_full hfull)⟩
    have h1 := hC c hc
    have h2 := hnext c hc
    omega

end

/-- In each of the cases the range is added, or refused. -/
theorem Inv.took (h : Inv m L B) (hlt : ∀ i ∈ L, m.pool.endAddress i + 1 < 2 ^ 64) (hz : 2 ≤ size)
    (htop : start + size < 2 ^ 64) (htakes : m.TakesOverlap start size) (fuel : ℕ) :
    Took m (Set.Ico start (start + size)) size
      (MemoryAllocator.defineFreeMemory (fuel + 2) m start size) := by
  obtain ⟨stop, hstop⟩ : ∃ stop, stop + 1 = start + size := ⟨start + size - 1, by omega⟩
  have htop' : stop + 1 < 2 ^ 64 := by omega
  have hchain := h.shape.chain_eq
  cases htakes with
  | inside hi hs he =>
    exact .inl ⟨_, h.defineFreeMemory_inside (fuel + 1) hstop htop' hz hlt (hchain ▸ hi) hs (by omega)⟩
  | behind hL hs he hnext hcount =>
    obtain rfl := hchain.symm.trans hL
    exact h.took_behind hz hstop htop' fuel hlt hs he hnext hcount
  | joined hL hs he hnext hcount =>
    obtain rfl := hchain.symm.trans hL
    exact h.took_joined hz hstop htop' fuel hlt hs he hnext hcount
  | before hL hs he hcount =>
    obtain rfl := hchain.symm.trans hL
    exact h.took_before hz hstop htop' fuel hlt hs he hcount
  | @fullGap A C x y hfull hL hs hs' he =>
    obtain rfl := hchain.symm.trans hL
    have hxle := h.start_le_end (show x ∈ A ++ x :: y :: C by simp)
    refine .inl ⟨_, (h.defineFreeMemory_insert (fuel + 1) hstop htop' hz hlt
      (h.entryBefore_at (by omega) ?_
      (by simp)) (by omega) (fun hc => by omega) (by omega) (by omega) (fun _ => by omega) ?_).trans
        (insertEntry_full hfull)⟩
    · rintro c ⟨⟩
      exact hs'.le
    · rintro c ⟨⟩
      omega
  | fullFirst hfull hL hs he hne hnext =>
    obtain rfl := hchain.symm.trans hL
    exact h.took_fullFirst hz hstop htop' fuel hlt hfull hs he hne hnext

/-! ## What goes wrong -/

/-- `define_free_memory` has failed, or the chain is in order and exactly the bytes `D` are free as
well. -/
def Adds (m : MemoryAllocator) (D : Set ℕ) (size : ℕ)
    (x : Exec (MemoryResult Unit × MemoryAllocator)) : Prop :=
  (∃ e m', x = .ok (.error e, m')) ∨ ∃ m', x = .ok (.ok (), m') ∧ m'.freeSize + size < 2 ^ 64 ∧
  m'.Ordered ∧
    m'.freeBytes = m.freeBytes ∪ D

section Wrong

variable {again : MemoryAllocator → ℕ → ℕ → Exec (MemoryResult Unit × MemoryAllocator)}
    {c k s e : ℕ} {D : Set ℕ}

/-- `x` has grown into the next entry. -/
theorem Inv.not_adds_over (h : Inv m (A ++ x :: c :: C) B)
    (hlt : ∀ i ∈ A ++ x :: c :: C, m.pool.endAddress i + 1 < 2 ^ 64) (htop : stop + 1 < 2 ^ 64)
    (hleft : m.pool.endAddress x + 1 = start) (hc : m.pool.startAddress c ≤ stop) :
    ¬Adds m D k (m.freeBeside again x start stop size) := by
  rw [h.freeBeside_over hlt htop hleft hc]
  have hfinish : ∀ {r : MemoryResult Unit} {m' : MemoryAllocator}, MemoryAllocator.finishExtended
      { m with pool := m.pool.withRange x (m.pool.startAddress x) stop } x (m.pool.size x) size =
      .ok (r, m') →
      r = .ok () ∧ m'.pool.range = (m.pool.withRange x (m.pool.startAddress x) stop).range ∧
        ∃ B', Shape m' (A ++ x :: c :: C) B' (orderOf m') := by
    intro r m' hr
    obtain ⟨hok, -, hrange, hs⟩ := (h.shape.withRange x (m.pool.startAddress x) stop).finishExtended _
      (by simp) rfl (fun i _ hi => (orderOf_eq (range_withRange_of_ne hi)).symm) hr
    exact ⟨hok, hrange, hs⟩
  rintro (⟨e, m', hr⟩ | ⟨m', hr, -, hordered, -⟩)
  · obtain ⟨hok, -⟩ := hfinish hr
    cases hok
  · obtain ⟨-, hrange, B', hs⟩ := hfinish hr
    have hsorted := hordered.pairwise hs
    rw [hrange, MemoryEntryPool.map_withRange h.shape.chain.nodup] at hsorted
    have hxc := List.rel_of_pairwise_cons (List.pairwise_append.mp hsorted).2.1
      (show m.pool.range c ∈ (c :: C).map m.pool.range by simp)
    exact absurd hc (not_le.mpr hxc)

/-- A new entry for a range that overlaps one. -/
theorem Inv.not_adds_insert {next : Option ℕ} (h : Inv m (A ++ C) B) (hx : x ∈ A ++ C) (hfull : ¬m.Full)
    (hlink : ∀ y, y < poolSize → m.pool.enabled y = false →
      MemoryAllocator.linkNewEntry { m with pool := (m.pool.fresh y).withRange y s e } x y next =
        .ok { m with
          firstEntry := (A ++ y :: C).head?
          pool := ((m.pool.fresh y).withRange y s e).chained y A.getLast? C.head? })
    (hover : (∃ i ∈ A, s ≤ m.pool.endAddress i) ∨ ∃ i ∈ C, m.pool.startAddress i ≤ e) :
    ¬Adds m D k (m.insertEntry x (m.pool.size x) s e size next) := by
  rintro (⟨e, m', hr⟩ | ⟨m', hr, -, hordered, -⟩)
  · obtain ⟨-, -, hnone⟩ | ⟨hok, -⟩ := h.inserted hx hlink hr
    · exact hfull (MemoryAllocator.createMemoryEntry_eq_none.mp hnone)
    · cases hok
  · obtain ⟨hfail, -⟩ | ⟨-, -, -, y, B', hs, -, hmap⟩ := h.inserted hx hlink hr
    · cases hfail
    · have hsorted := hordered.pairwise hs
      rw [hmap] at hsorted
      obtain ⟨hAs, -, hsC⟩ := List.pairwise_append.mp hsorted
      obtain ⟨i, hi, hle⟩ | ⟨i, hi, hle⟩ := hover
      · have := (List.pairwise_append.mp hAs).2.2 _ (List.mem_map_of_mem hi) (s, e) (by simp)
        exact absurd hle (not_le.mpr this)
      · have := hsC (s, e) (by simp) _ (List.mem_map_of_mem hi)
        exact absurd hle (not_le.mpr this)

/-- Two bytes behind the range have become free. -/
theorem Inv.not_adds_extra (h : Inv m (A ++ x :: C) B) (hmid : start ≤ m.pool.endAddress x)
    (hstop : stop + 1 = start + size) (he : m.pool.endAddress x < stop)
    (hC : ∀ c ∈ C, stop + 2 < m.pool.startAddress c) :
    ¬Adds m (Set.Ico start (start + size)) k (m.freeBeside again x (m.pool.endAddress x + 1) (stop + 2)
      (stop - m.pool.endAddress x + 2)) := by
  rintro (⟨e, m', hr⟩ | ⟨m', hr, -, -, hbytes⟩)
  · refine (freeBeside_error (fun c hc => ?_) hr).2.1 rfl
    rw [h.shape.chain.getNextEntry] at hc
    have hmem := List.mem_of_head? hc
    have h1 := h.end_lt hmem
    refine ⟨fun hcx => ?_, by omega⟩
    have h2 := h.start_le_end (show x ∈ A ++ x :: C by simp)
    rw [hcx] at h1
    omega
  · obtain ⟨L', B', hinv, hcov⟩ := h.freeAfter (Nat.lt_succ_self _) hC (by omega) (by omega) hr
    have hfree : stop + 1 ∈ m'.freeBytes := by
      rw [hinv.freeBytes_eq, hcov]
      exact .inr ⟨by omega, by omega⟩
    rw [hbytes] at hfree
    obtain hold | hnew := hfree
    · obtain ⟨_, hmem, hb⟩ := h.freeBytes_eq ▸ hold
      obtain ⟨i, hi, rfl⟩ := List.mem_map.mp hmem
      simp only [MemoryEntryPool.range] at hb
      rcases List.mem_append.mp hi with hi | hi
      · have h1 := h.lt_start hi
        have h2 := h.start_le_end (show x ∈ A ++ x :: C by simp)
        omega
      rcases List.mem_cons.mp hi with rfl | hi
      · omega
      · have := hC i hi
        omega
    · have := hnew.2
      omega

/-- The first two entries have become one, and the bytes in front of it are lost. -/
theorem Inv.not_adds_lost (h : Inv m (x :: c :: C) B)
    (hlt : ∀ i ∈ x :: c :: C, m.pool.endAddress i + 1 < 2 ^ 64) (htop : stop + 1 < 2 ^ 64)
    (hstop : stop + 1 = start + size) (hz : 2 ≤ size) (hs : start < m.pool.startAddress x)
    (hc : m.pool.startAddress c = stop + 1) :
    ¬Adds m (Set.Ico start (start + size)) k (m.freeBeside again x start stop size) := by
  have hxc := Inv.end_lt (A := []) h (show c ∈ c :: C by simp)
  have hxle := h.start_le_end (show x ∈ x :: c :: C by simp)
  have hcle := h.start_le_end (show c ∈ x :: c :: C by simp)
  have hmerged : ∀ {r : MemoryResult Unit} {m' : MemoryAllocator},
      m.freeBeside again x start stop size = .ok (r, m') → r = .ok () ∧ ∃ B', Shape m' (x :: C) B'
        (orderOf m') ∧
        (x :: C).map m'.pool.range = (m.pool.startAddress x, m.pool.endAddress c) :: C.map
        m.pool.range := by
    intro r m' hr
    rw [Inv.freeBeside_join (A := []) h hlt htop (by omega) (by omega) hc] at hr
    obtain ⟨m₁, h₁, hr⟩ := Exec.bind_eq_ok.mp hr
    obtain ⟨m₂, h₂, hr⟩ := Exec.bind_eq_ok.mp hr
    obtain ⟨hok, -, B', hs', -, hmap⟩ := Inv.merged (A := []) h (by omega) (by omega) h₁ h₂ hr
    exact ⟨hok, B', hs', hmap⟩
  rintro (⟨e, m', hr⟩ | ⟨m', hr, -, -, hbytes⟩)
  · obtain ⟨hok, -⟩ := hmerged hr
    cases hok
  · obtain ⟨-, B', hs', hmap⟩ := hmerged hr
    have hfree : start ∈ m'.freeBytes := hbytes ▸ .inr ⟨le_rfl, by omega⟩
    rw [hs'.freeBytes_eq, hmap] at hfree
    obtain ⟨b, hb, hlo, hhi⟩ := hfree
    rcases List.mem_cons.mp hb with rfl | hb
    · exact absurd hlo (not_le.mpr hs)
    · obtain ⟨i, hi, rfl⟩ := List.mem_map.mp hb
      have h1 := Inv.end_lt (A := []) h (List.mem_cons_of_mem c hi)
      simp only [MemoryEntryPool.range] at hlo
      omega

end Wrong

/-! ## What is counted -/

section Count

variable {again : MemoryAllocator → ℕ → ℕ → Exec (MemoryResult Unit × MemoryAllocator)} {after old c k : ℕ}
  {processed b : Bool} {next : Option ℕ}

theorem freeSize_of_finishExtended (hr : m.finishExtended x old size = .ok (r, m')) :
    m'.freeSize = m.freeSize + size := by
  obtain ⟨_, hadd, hr⟩ := Exec.bind_eq_ok.mp hr
  obtain ⟨-, rfl⟩ := checkedAdd_eq_ok.mp hadd
  obtain ⟨m₁, hm₁, hr⟩ := Exec.bind_eq_ok.mp hr
  cases hr
  exact MemoryAllocator.freeSize_of_rechain hm₁

theorem freeSize_of_linkBefore {limit : ℕ} (hr : m.linkBefore x y limit = .ok m') :
    m'.freeSize = m.freeSize := by
  unfold MemoryAllocator.linkBefore at hr
  cases hp : m.pool.getPrevEntry x with
  | none =>
    rw [hp] at hr
    cases hr
    rfl
  | some prevEntry =>
    rw [hp] at hr
    obtain ⟨_, -, hr⟩ := Exec.bind_eq_ok.mp hr
    cases hr
    rfl

theorem freeSize_of_linkNewEntry (hr : m.linkNewEntry x y next = .ok m') : m'.freeSize = m.freeSize := by
  cases next with
  | none =>
    simp only [MemoryAllocator.linkNewEntry] at hr
    split_ifs at hr
    · cases hr
      rfl
    · exact freeSize_of_linkBefore hr
  | some next =>
    simp only [MemoryAllocator.linkNewEntry] at hr
    split_ifs at hr
    · exact freeSize_of_linkBefore hr
    · cases hr
      rfl

theorem freeSize_of_insertEntry (hr : m.insertEntry x old start stop size next = .ok (.ok (), m')) :
    m'.freeSize = m.freeSize + size := by
  unfold MemoryAllocator.insertEntry at hr
  cases hc : m.pool.createMemoryEntry with
  | none =>
    rw [hc] at hr
    cases hr
  | some new =>
    obtain ⟨y, p⟩ := new
    simp only [hc, Exec.bind_eq_ok] at hr
    obtain ⟨q, -, m₁, hm₁, _, hadd, m₂, hm₂, m₃, hm₃, hr⟩ := hr
    cases hr
    obtain ⟨-, rfl⟩ := checkedAdd_eq_ok.mp hadd
    have h1 := freeSize_of_linkNewEntry hm₁
    have h2 := MemoryAllocator.freeSize_of_rechain hm₂
    have h3 := MemoryAllocator.freeSize_of_rechain hm₃
    simp only at h1 h2 h3
    omega

theorem freeSize_of_extendNext (hr : m.extendNext c start stop processed = .ok (m', b)) :
    m'.freeSize = m.freeSize := by
  obtain ⟨_, -, hr⟩ := Exec.bind_eq_ok.mp hr
  split_ifs at hr
  · obtain ⟨m₁, hm₁, hr⟩ := Exec.bind_eq_ok.mp hr
    cases hr
    simp only [MemoryAllocator.resizeEntry, Exec.bind_eq_ok] at hm₁
    obtain ⟨_, -, q, -, hm₁⟩ := hm₁
    have hfs := MemoryAllocator.freeSize_of_rechain hm₁
    exact hfs
  · cases hr
    rfl

theorem freeSize_of_mergeNext (hr : m.mergeNext x c after processed = .ok m') :
    m'.freeSize = m.freeSize := by
  obtain ⟨_, -, hr⟩ := Exec.bind_eq_ok.mp hr
  split_ifs at hr
  · simp only [MemoryAllocator.deleteEntry, Exec.bind_eq_ok] at hr
    obtain ⟨q, -, pl, -, hr⟩ := hr
    cases hr
    rfl
  · cases hr
    rfl

theorem freeSize_of_freeWithNext (hn : ∀ c, next = some c → start < m.pool.startAddress c)
    (hr : m.freeWithNext again x after old start stop size processed next = .ok (.ok (), m')) :
    m'.freeSize = m.freeSize + size := by
  cases next with
  | none =>
    simp only [MemoryAllocator.freeWithNext] at hr
    split_ifs at hr
    · exact freeSize_of_finishExtended hr
    · exact freeSize_of_insertEntry hr
  | some c =>
    simp only [MemoryAllocator.freeWithNext, not_le.mpr (hn c rfl), if_false, Exec.bind_eq_ok] at hr
    obtain ⟨⟨m₁, b⟩, hext, m₂, hmerge, hr⟩ := hr
    have h1 := freeSize_of_extendNext hext
    have h2 := freeSize_of_mergeNext hmerge
    rw [← h1, ← h2]
    split_ifs at hr
    · exact freeSize_of_finishExtended hr
    · exact freeSize_of_insertEntry hr

/-- A range that is freed without a further call is counted once. -/
theorem Inv.freeSize_of_freeBeside (h : Inv m (A ++ x :: C) B)
    (hn : ∀ c, C.head? = some c → start < m.pool.startAddress c)
    (hr : m.freeBeside again x start stop size = .ok (.ok (), m')) : m'.freeSize = m.freeSize + size := by
  simp only [MemoryAllocator.freeBeside, Exec.bind_eq_ok] at hr
  obtain ⟨old, -, after, -, ⟨p₁, b₁⟩, h₁, ⟨p₂, b₂⟩, h₂, hr⟩ := hr
  obtain ⟨-, hnext, hrange⟩ := extended h₁ h₂
  have hget : p₂.getNextEntry x = C.head? := by
    rw [MemoryEntryPool.getNextEntry, hnext]
    exact h.shape.chain.getNextEntry
  dsimp only at hr
  rw [hget] at hr
  have hfs := freeSize_of_freeWithNext (fun c hc => ?_) hr
  · exact hfs
  · have hcx : c ≠ x := fun hcx => (List.nodup_cons.mp (List.nodup_append.mp h.shape.chain.nodup).2.1).1
      (hcx ▸ List.mem_of_head? hc)
    have hstart : p₂.startAddress c = m.pool.startAddress c := congrArg Prod.fst (hrange c hcx)
    simp only [hstart]
    exact hn c hc

end Count

/-! ## Where it goes well only -/

section Takes

/-- A range that touches an entry is counted, and the size of the whole range after it. -/
theorem Inv.freeSize_of_adds {again : MemoryAllocator → ℕ → ℕ → Exec (MemoryResult Unit × MemoryAllocator)}
    {s e n k : ℕ} {D : Set ℕ} (h : Inv m (A ++ x :: C) B)
    (hn : ∀ c, C.head? = some c → s < m.pool.startAddress c)
    (htouch : m.pool.endAddress x + 1 = s ∨ (A = [] ∧ m.pool.startAddress x = e + 1) ∨
      ∃ c, C.head? = some c ∧ m.pool.startAddress c = e + 1)
    (hadds : Adds m D k (m.freeBeside again x s e n)) : m.freeSize + n + k < 2 ^ 64 := by
  obtain ⟨e, m', hr⟩ | ⟨m', hr, hcount, -⟩ := hadds
  · have hnext : ∀ c, m.pool.getNextEntry x = some c → c ≠ x ∧ s < m.pool.startAddress c ∧
        m.pool.startAddress c ≠ m.pool.endAddress x + 1 := by
      intro c hc
      rw [h.shape.chain.getNextEntry] at hc
      have h1 := h.end_lt (List.mem_of_head? hc)
      have h2 := h.start_le_end (show x ∈ A ++ x :: C by simp)
      refine ⟨fun hcx => ?_, hn c hc, by omega⟩
      rw [hcx] at h1
      omega
    obtain ⟨-, h1, h2, h3⟩ := freeBeside_error hnext hr
    rw [h.shape.chain.getNextEntry] at h3
    obtain htouch | ⟨rfl, hx⟩ | ⟨c, hc, hce⟩ := htouch
    · exact absurd htouch h1
    · exact absurd hx (h2 (Inv.previous_eq_none h))
    · exact absurd hce (h3 c hc)
  · rw [← h.freeSize_of_freeBeside hn hr]
    exact hcount

variable (fuel : ℕ) (hstop : stop + 1 = start + size) (htop : stop + 1 < 2 ^ 64) (hz : 2 ≤ size)

include hstop htop hz

/-- The range begins with `y`, or inside of it if it is the last entry. -/
theorem Inv.takes_behind (h : Inv m (A ++ x :: y :: C) B)
    (hlt : ∀ i ∈ A ++ x :: y :: C, m.pool.endAddress i + 1 < 2 ^ 64)
    (hs : m.pool.startAddress y = start ∨ C = [] ∧ m.pool.startAddress y < start ∧
      start < m.pool.endAddress y)
    (hadds : Adds m (Set.Ico start (start + size)) size
      (MemoryAllocator.defineFreeMemory (fuel + 2) m start size)) :
    m.TakesOverlap start size := by
  have hchain := h.shape.chain_eq
  have h' : Inv m (A ++ [x] ++ y :: C) B := by simpa using h
  obtain hin | hout := le_or_gt stop (m.pool.endAddress y)
  · exact .inside (i := y) (by rw [hchain]; simp) (by omega) (by omega)
  rw [h.defineFreeMemory_behind fuel hstop htop hz hlt hs hout] at hadds
  have hnext : ∀ z, C.head? = some z → start + size ≤ m.pool.startAddress z := by
    intro z hz'
    by_contra hle
    obtain ⟨C, rfl⟩ : ∃ C', C = z :: C' := ⟨_, List.eq_cons_of_mem_head? hz'⟩
    exact h'.not_adds_over (by simpa using hlt) htop rfl (by omega) hadds
  refine .behind hchain hs (by omega) hnext ?_
  have hcount := h'.freeSize_of_adds (fun c hc => by have := hnext c hc; omega) (.inl rfl) hadds
  omega

/-- The range begins in the tail of an entry that is not the first one. -/
theorem Inv.not_adds_tail (h : Inv m (A ++ x :: C) B)
    (hlt : ∀ i ∈ A ++ x :: C, m.pool.endAddress i + 1 < 2 ^ 64)
    (hA : A ≠ []) (hs : m.pool.startAddress x < start) (hmid : start ≤ m.pool.endAddress x)
    (he : m.pool.endAddress x < stop) (hend : C = [] → m.pool.endAddress x ≤ start) :
    ¬Adds m (Set.Ico start (start + size)) size
      (MemoryAllocator.defineFreeMemory (fuel + 2) m start size) := by
  rw [h.defineFreeMemory_tail fuel hstop htop hz hA hs hmid he hend]
  split_ifs with htop'
  · by_cases hC : ∀ c ∈ C, stop + 2 < m.pool.startAddress c
    · exact h.not_adds_extra hmid hstop he hC
    · simp only [not_forall, not_lt] at hC
      obtain ⟨c, hc, hle⟩ := hC
      obtain ⟨d, C, rfl⟩ := List.exists_cons_of_ne_nil (List.ne_nil_of_mem hc)
      have hd : m.pool.startAddress d ≤ stop + 2 := by
        rcases List.mem_cons.mp hc with rfl | hc
        · exact hle
        · have h' : Inv m (A ++ [x] ++ d :: C) B := by simpa using h
          have h1 := h'.end_lt hc
          have h2 := h'.start_le_end (show d ∈ A ++ [x] ++ d :: C by simp)
          omega
      exact h.not_adds_over hlt htop' rfl hd
  · rintro (⟨e, m', hr⟩ | ⟨m', hr, -⟩) <;> cases hr

/-- The range begins in a gap and goes into the next entry. -/
theorem Inv.full_of_adds_gap (h : Inv m (A ++ x :: y :: C) B)
    (hlt : ∀ i ∈ A ++ x :: y :: C, m.pool.endAddress i + 1 < 2 ^ 64) (hs : m.pool.endAddress x + 1 < start)
    (hs' : start < m.pool.startAddress y) (he : m.pool.startAddress y < start + size)
    (hadds : Adds m (Set.Ico start (start + size)) size
      (MemoryAllocator.defineFreeMemory (fuel + 2) m start size)) :
    m.Full := by
  by_contra hfull
  have hxle := h.start_le_end (show x ∈ A ++ x :: y :: C by simp)
  have hL : A ++ x :: y :: C = (A ++ [x]) ++ y :: C := by simp
  have hyC : ∀ c, (y :: C).head? = some c → start < m.pool.startAddress c ∧ m.pool.startAddress c ≠
      stop + 1 := by
    rintro c ⟨⟩
    omega
  rw [h.defineFreeMemory_insert (fuel + 1) hstop htop hz hlt
    (h.entryBefore_at (by omega) (fun c hc => (hyC c hc).1.le) (by simp)) (by omega)
    (fun hc => by omega) (by omega)
    (by omega) (fun _ => by omega) hyC] at hadds
  refine Inv.not_adds_insert (A := A ++ [x]) (hL ▸ h) (by simp) hfull (fun z _ hz' => ?_)
    (.inr ⟨y, by simp, by omega⟩) hadds
  rw [h.shape.chain.linkNewEntry_after hz' (fun _ => by omega) (by simp), List.getLast?_concat,
    h.shape.chain.head]
  simp

/-- The range overlaps the first entry. -/
theorem Inv.takes_first (h : Inv m (x :: C) B) (hlt : ∀ i ∈ x :: C, m.pool.endAddress i + 1 < 2 ^ 64)
    (hs : m.pool.startAddress x < start + size) (he : start ≤ m.pool.endAddress x)
    (hadds : Adds m (Set.Ico start (start + size)) size
      (MemoryAllocator.defineFreeMemory (fuel + 2) m start size)) :
    m.TakesOverlap start size := by
  have hchain := h.shape.chain_eq
  have hxle := h.start_le_end (show x ∈ x :: C by simp)
  have hC : ∀ c, C.head? = some c → m.pool.endAddress x + 1 < m.pool.startAddress c :=
    fun c hc => Inv.end_lt (A := []) h (List.mem_of_head? hc)
  by_cases hin : m.pool.startAddress x ≤ start ∧ stop ≤ m.pool.endAddress x
  · exact .inside (i := x) (by rw [hchain]; simp) hin.1 (by omega)
  have hentry : m.entryBefore start = .ok (.ok x) := by
    obtain hlt | hge := lt_or_ge (m.pool.startAddress x) start
    · exact Inv.entryBefore_at (A := []) h hlt (fun c hc => by have := hC c hc; omega) (by simp)
    · exact h.entryBefore_first hge
  obtain hstopx | hne := eq_or_ne (m.pool.endAddress x) stop
  · -- what is in front of the entry is freed
    rw [h.defineFreeMemory_front fuel hstop htop hz hlt (by omega) hstopx] at hadds
    refine .before hchain (by omega) (by omega) ?_
    exact Inv.freeSize_of_adds (A := []) h (fun c hc => by have := hC c hc; omega)
      (.inr (.inl ⟨rfl, by omega⟩)) hadds
  by_cases hjoin : ∃ c, C.head? = some c ∧ m.pool.startAddress c = stop + 1
  · obtain ⟨c, hc, hce⟩ := hjoin
    obtain ⟨C, rfl⟩ : ∃ C', C = c :: C' := ⟨_, List.eq_cons_of_mem_head? hc⟩
    rw [defineFreeMemory_at hentry (by omega) hstop htop,
      freeRange_beside hin (fun _ => Inv.previous_eq_none h) hne] at hadds
    obtain hsx | hsx := le_or_gt (m.pool.startAddress x) start
    · refine .joined hchain hsx he (by omega) ?_
      exact Inv.freeSize_of_adds (A := []) h (fun d hd => by have := hC d hd; omega)
        (.inr (.inr ⟨c, rfl, hce⟩)) hadds
    · exact absurd hadds (h.not_adds_lost hlt htop hstop hz hsx hce)
  have hnext : ∀ c, C.head? = some c → start < m.pool.startAddress c ∧ m.pool.startAddress c ≠ stop + 1 :=
    fun c hc => ⟨by have := hC c hc; omega, fun hce => hjoin ⟨c, hc, hce⟩⟩
  rw [Inv.defineFreeMemory_insert (A := []) (fuel + 1) hstop htop hz h hlt hentry hin (fun _ => rfl)
    hne (by omega)
    (fun _ => by omega) hnext] at hadds
  refine .fullFirst ?_ hchain hs he (by omega) fun c hc => by have := (hnext c hc).2; omega
  by_contra hfull
  cases C with
  | nil =>
    refine Inv.not_adds_insert (A := []) h (by simp) hfull (fun z _ hz' => ?_)
      (.inr ⟨x, by simp, by omega⟩) hadds
    rw [h.shape.chain.linkNewEntry_before hz' (by simp) fun _ => he]
    simp
  | cons c C =>
    refine Inv.not_adds_insert (A := [x]) h (by simp) hfull (fun z _ hz' => ?_)
      (.inl ⟨x, by simp, he⟩) hadds
    rw [AddressChain.linkNewEntry_after (A := []) h.shape.chain hz' (fun _ => by omega) (by simp),
      h.shape.chain.head]
    simp

/-- The range is added, or refused, in no other case. -/
theorem Inv.takes_of_adds (h : Inv m L B) (hlt : ∀ i ∈ L, m.pool.endAddress i + 1 < 2 ^ 64) (hi : i ∈ L)
    (hs : m.pool.startAddress i < start + size) (he : start ≤ m.pool.endAddress i)
    (hadds : Adds m (Set.Ico start (start + size)) size
      (MemoryAllocator.defineFreeMemory (fuel + 2) m start size)) :
    m.TakesOverlap start size := by
  obtain ⟨x, C, rfl, hx⟩ | ⟨A, x, C, rfl, hx, hC, hend⟩ | ⟨A, x, y, rfl, hy, hend⟩ :=
    h.position (List.ne_nil_of_mem hi) start
  · -- in front of the first entry, or with it
    have hxle := h.start_le_end (show x ∈ x :: C by simp)
    refine h.takes_first fuel hstop htop hz hlt ?_ (by omega) hadds
    rcases List.mem_cons.mp hi with rfl | hi
    · exact hs
    · have := Inv.end_lt (A := []) h hi
      omega
  · have hxle := h.start_le_end (show x ∈ A ++ x :: C by simp)
    obtain hmid | hgap := le_or_gt start (m.pool.endAddress x)
    · -- inside of an entry
      obtain hin | hout := le_or_gt stop (m.pool.endAddress x)
      · exact .inside (i := x) (by rw [h.shape.chain_eq]; simp) hx.le (by omega)
      · obtain rfl | hA := eq_or_ne A []
        · exact h.takes_first fuel hstop htop hz hlt (by omega) hmid hadds
        · exact absurd hadds (h.not_adds_tail fuel hstop htop hz hlt hA hx hmid hout fun hnil =>
            hend hnil hA)
    · -- behind an entry, and into the next one
      have hiC : i ∈ C := by
        rcases List.mem_append.mp hi with hi | hi
        · have := h.lt_start hi
          omega
        rcases List.mem_cons.mp hi with rfl | hi
        · omega
        · exact hi
      obtain ⟨c, C, rfl⟩ := List.exists_cons_of_ne_nil (List.ne_nil_of_mem hiC)
      have hxc := h.end_lt (show c ∈ c :: C by simp)
      have hcs := hC c rfl
      have hce : m.pool.startAddress c < start + size := by
        rcases List.mem_cons.mp hiC with rfl | hiC
        · exact hs
        · have h' : Inv m (A ++ [x] ++ c :: C) B := by simpa using h
          have h1 := h'.end_lt hiC
          have h2 := h'.start_le_end (show c ∈ A ++ [x] ++ c :: C by simp)
          omega
      obtain hcs | hcs := hcs.eq_or_lt
      · exact h.takes_behind fuel hstop htop hz hlt (.inl hcs.symm) hadds
      obtain hgap | hgap := (Nat.succ_le_of_lt hgap).eq_or_lt
      · have hentry : m.entryBefore start = .ok (.ok x) :=
          h.entryBefore_at hx (by rintro d ⟨⟩; exact hcs.le) (by simp)
        rw [defineFreeMemory_at hentry (by omega) hstop htop,
          freeRange_beside (by omega) (fun hc => by omega) (by omega)] at hadds
        exact absurd hadds (h.not_adds_over hlt htop hgap (by omega))
      · exact .fullGap (h.full_of_adds_gap fuel hstop htop hz hlt hgap hcs hce hadds)
          h.shape.chain_eq hgap hcs hce
  · exact h.takes_behind fuel hstop htop hz hlt (.inr ⟨rfl, hy, hend⟩) hadds

end Takes

/-! ## `free` -/

theorem Inv.exists_entryBefore (h : Inv m L B) (hL : L ≠ []) (start : ℕ) :
    ∃ x, m.entryBefore start = .ok (.ok x) := by
  obtain ⟨x, C, rfl, hx⟩ | ⟨A, x, C, rfl, hx, hC, hend⟩ | ⟨A, x, y, rfl, hy, hend⟩ := h.position hL start
  · exact ⟨x, h.entryBefore_first hx⟩
  · exact ⟨x, h.entryBefore_at hx hC hend⟩
  · exact ⟨x, h.entryBefore_prev hy hend⟩

/-- `free` adds the size once more than `define_free_memory`. -/
theorem addsRange_of_took (hf : m.freeSize ≠ 0) (htook : Took m (Set.Ico start (start + size)) size
    (MemoryAllocator.defineFreeMemory (4 * poolSize) m start size)) : m.AddsRange start size := by
  rw [MemoryAllocator.AddsRange, MemoryAllocator.free, if_neg hf]
  obtain ⟨e, hr⟩ | ⟨m', hr, hcount, ⟨L', B', hinv⟩, hbytes⟩ := htook
  · rw [hr, Exec.ok_bind]
    exact ⟨_, _, rfl, rfl⟩
  · rw [hr, Exec.ok_bind]
    dsimp only
    rw [checkedAdd_of_lt hcount, Exec.ok_bind]
    have hordered := hinv.ordered
    exact ⟨_, _, rfl, ⟨hordered.first, hordered.linked, hordered.visits, hordered.once,
      hordered.sorted⟩, hbytes⟩

theorem adds_of_addsRange (hf : m.freeSize ≠ 0) (hadds : m.AddsRange start size) :
    Adds m (Set.Ico start (start + size)) size
      (MemoryAllocator.defineFreeMemory (4 * poolSize) m start size) := by
  rw [MemoryAllocator.AddsRange, MemoryAllocator.free, if_neg hf] at hadds
  obtain ⟨r, m', hr, hbytes⟩ := hadds
  obtain ⟨⟨_ | u, m₁⟩, hdefine, hr⟩ := Exec.bind_eq_ok.mp hr
  · exact .inl ⟨_, _, hdefine⟩
  · obtain ⟨freeSize, hsum, hr⟩ := Exec.bind_eq_ok.mp hr
    obtain ⟨hcount, rfl⟩ := checkedAdd_eq_ok.mp hsum
    cases hr
    obtain ⟨hordered, hbytes⟩ := hbytes
    exact .inr ⟨m₁, hdefine, hcount, ⟨hordered.first, hordered.linked, hordered.visits, hordered.once,
      hordered.sorted⟩, hbytes⟩

theorem MemoryAllocator.TakesOverlap.ne_nil (h : m.TakesOverlap start size) : m.chain ≠ [] := by
  cases h with
  | inside hi => exact List.ne_nil_of_mem hi
  | behind hchain => simp [hchain]
  | joined hchain => simp [hchain]
  | before hchain => simp [hchain]
  | fullGap _ hchain => simp [hchain]
  | fullFirst _ hchain => simp [hchain]

/-- A range in one of these positions is added to the free bytes, or refused. -/
theorem MemoryAllocator.Valid.freedOverlap (h : m.Valid) (hlt : ∀ b ∈ m.freeBytes, b + 1 < 2 ^ 64)
    (hz : 2 ≤ size) (htop : start + size < 2 ^ 64) (htakes : m.TakesOverlap start size)
    (hr : m.free start size = .ok (r, m')) :
    m.Changed r m' fun _ => m.freeBytes ∪ Set.Ico start (start + size) := by
  obtain ⟨⟨L, B, hinv⟩, -⟩ := h
  have hf := hinv.freeSize_ne_zero (hinv.shape.chain_eq ▸ htakes.ne_nil)
  have htook := hinv.took (fun i hi => hlt _ (hinv.endAddress_mem hi)) hz htop htakes 254
  rw [MemoryAllocator.free, if_neg hf] at hr
  obtain ⟨e, hd⟩ | ⟨m₁, hd, hcount, ⟨L', B', hinv'⟩, hbytes⟩ := htook
  · obtain ⟨⟨r₁, m₂⟩, hd', hr⟩ := Exec.bind_eq_ok.mp hr
    cases hd.symm.trans hd'
    cases hr
    rfl
  · obtain ⟨⟨r₁, m₂⟩, hd', hr⟩ := Exec.bind_eq_ok.mp hr
    cases hd.symm.trans hd'
    obtain ⟨freeSize, hsum, hr⟩ := Exec.bind_eq_ok.mp hr
    obtain ⟨-, rfl⟩ := checkedAdd_eq_ok.mp hsum
    cases hr
    have hne : L' ≠ [] := by
      rintro rfl
      have hmem : start ∈ m₁.freeBytes := hbytes ▸ .inr ⟨le_rfl, by omega⟩
      rw [hinv'.freeBytes_eq] at hmem
      simp at hmem
    refine ⟨⟨⟨L', B', hinv'.shape.withFreeSize _, hinv'.sorted, hinv'.separated,
      hinv'.counted.trans (Nat.le_add_right _ _), fun hc => absurd hc hne⟩, ?_⟩, hbytes⟩
    rintro b hb
    obtain hb | hb : b ∈ m.freeBytes ∪ Set.Ico start (start + size) := hbytes ▸ hb
    · exact Nat.lt_of_succ_lt (hlt b hb)
    · exact hb.2.trans htop

/-- A run of calls from `new` in which a range that is freed is in use, or in one of these
positions, and no assertion and no overflow check fails. -/
inductive OverlapRun : MemoryAllocator → Prop
  | new : OverlapRun .new
  | free {m m' : MemoryAllocator} {r : MemoryResult Unit} (start size : ℕ) (h : OverlapRun m)
      (hfree : Disjoint (Set.Ico start (start + size)) m.freeBytes ∨
        2 ≤ size ∧ start + size < 2 ^ 64 ∧ m.TakesOverlap start size)
      (he : m.free start size = .ok (r, m')) : OverlapRun m'
  | reserveMemory {m m' : MemoryAllocator} {r : MemoryResult Unit} (start size o : ℕ)
      (h : OverlapRun m) (hin : ∃ i ∈ m.chain, reservedBytes start size o ⊆
        Set.Icc (m.pool.startAddress i) (m.pool.endAddress i))
      (he : m.reserveMemory start size o = .ok (r, m')) : OverlapRun m'
  | allocate {m m' : MemoryAllocator} {r : MemoryResult ℕ} (size o : ℕ) (h : OverlapRun m)
      (he : m.allocate size o = .ok (r, m')) : OverlapRun m'

/-- The invariant is kept, and the last byte of the address space is never free. -/
theorem OverlapRun.valid (h : OverlapRun m) : m.Valid ∧ ∀ b ∈ m.freeBytes, b + 1 < 2 ^ 64 := by
  induction h with
  | new => exact ⟨CallRun.new.valid, CallRun.new.lt⟩
  | @free m m' r start size _ hfree he ih =>
    have hchanged : m.Changed r m' fun _ => m.freeBytes ∪ Set.Ico start (start + size) := by
      obtain hfree | ⟨hz, htop, htakes⟩ := hfree
      · exact ih.1.freed hfree he
      · exact ih.1.freedOverlap ih.2 hz htop htakes he
    exact ⟨hchanged.valid ih.1, hchanged.lt ih.2 (lt_of_mem_freed ih.2 he)⟩
  | reserveMemory start size o _ hin he ih =>
    have hchanged := ih.1.reserveAligned hin he
    exact ⟨hchanged.valid ih.1, hchanged.lt ih.2 fun a _ b hb => ih.2 b hb.1⟩
  | allocate size o _ he ih =>
    have hchanged := (ih.1.allocate he).1
    exact ⟨hchanged.valid ih.1, hchanged.lt ih.2 fun a _ b hb => ih.2 b hb.1⟩

/-- A range of which a byte is free already is given back right exactly in the positions of
`TakesOverlap` : then `free` fails and leaves the free bytes alone, or it adds exactly the range and
leaves the chain in order. -/
theorem free_overlap_iff (h : OverlapRun m) (hz : 2 ≤ size)
    (hover : ∃ b ∈ m.freeBytes, start ≤ b ∧ b < start + size) :
    m.AddsRange start size ↔ start + size < 2 ^ 64 ∧ m.TakesOverlap start size := by
  obtain ⟨⟨⟨L, B, hinv⟩, -⟩, hlast⟩ := h.valid
  obtain ⟨b, hb, hlo, hhi⟩ := hover
  obtain ⟨_, hmem, hs, he⟩ := hinv.freeBytes_eq ▸ hb
  obtain ⟨i, hi, rfl⟩ := List.mem_map.mp hmem
  have hL := List.ne_nil_of_mem hi
  have hf := hinv.freeSize_ne_zero hL
  have hlt : ∀ i ∈ L, m.pool.endAddress i + 1 < 2 ^ 64 := fun i hi =>
    hlast _ (hinv.endAddress_mem hi)
  have hfuel : 4 * poolSize = 254 + 2 := rfl
  constructor
  · intro hadds
    replace hadds := adds_of_addsRange hf hadds
    rw [hfuel] at hadds
    by_cases htop : start + size < 2 ^ 64
    · have hstop : start + size - 1 + 1 = start + size := by omega
      exact ⟨htop, hinv.takes_of_adds 254 hstop (by omega) hz hlt hi (hs.trans_lt hhi)
        (hlo.trans he) hadds⟩
    · -- the end of the range is not computed
      obtain ⟨x, hentry⟩ := hinv.exists_entryBefore hL start
      rw [MemoryAllocator.defineFreeMemory, if_neg (by omega), hentry, Exec.ok_bind] at hadds
      dsimp only at hadds
      rw [getEndAddress, checkedAdd, if_neg htop, Exec.error_bind, Exec.error_bind] at hadds
      obtain ⟨e, m', hr⟩ | ⟨m', hr, -⟩ := hadds
      · cases hr
      · cases hr
  · rintro ⟨htop, htakes⟩
    refine addsRange_of_took hf ?_
    rw [hfuel]
    exact hinv.took hlt hz htop htakes 254

/-- One range is free, and twice a range is given back that begins in front of what is free and ends
with it. -/
theorem free_overlap_iff_front :
    ∃ m, OverlapRun m ∧ (∃ b ∈ m.freeBytes, 0x400 ≤ b ∧ b < 0x400 + 0x3C00) ∧
    m.AddsRange 0x400 0x3C00 := by
  have hfree : Disjoint (Set.Ico 0x1000 (0x1000 + 0x3000)) MemoryAllocator.new.freeBytes := by
    simp [Inv.new.freeBytes_eq, covered]
  obtain ⟨m₁, m₂, hm₁, hbeside, hchain₁, hstart₁, hend₁, hcount₁, hchain₂, hstart₂, hend₂, hcount₂⟩ :
      ∃ m₁ m₂ : MemoryAllocator, OverlapRun m₁ ∧
        m₁.freeBeside (MemoryAllocator.defineFreeMemory 254) 0 0x800 (0x1000 - 1) (0x1000 - 0x800) =
          .ok (.ok (), m₂) ∧ m₁.chain = [0] ∧ m₁.pool.startAddress 0 = 0x1000 ∧
        m₁.pool.endAddress 0 = 0x3FFF ∧ m₁.freeSize = 0x3000 ∧ m₂.chain = [0] ∧
        m₂.pool.startAddress 0 = 0x800 ∧ m₂.pool.endAddress 0 = 0x3FFF ∧ m₂.freeSize = 0x3800 :=
    ⟨_, _, .free (m := .new) 0x1000 0x3000 .new (.inl hfree)
      rfl, rfl, rfl, rfl, rfl, rfl, rfl, rfl, rfl, rfl⟩
  obtain ⟨m, hr, hchain, hstart, hend, hcount⟩ : ∃ m, m₁.free 0x800 0x3800 = .ok (.ok (), m) ∧
    m.chain = [0] ∧
      m.pool.startAddress 0 = 0x800 ∧ m.pool.endAddress 0 = 0x3FFF ∧ m.freeSize = 0x7000 := by
    obtain ⟨⟨⟨L, B, hinv⟩, -⟩, hlast⟩ := hm₁.valid
    obtain rfl : [0] = L := hchain₁.symm.trans hinv.shape.chain_eq
    have hdefine := hinv.defineFreeMemory_front 254 (show 0x3FFF + 1 = 0x800 + 0x3800 by decide)
        (by decide)
      (by decide) (fun i hi => hlast _ (hinv.endAddress_mem hi)) (by rw [hstart₁]; decide) hend₁
    rw [hstart₁, hbeside] at hdefine
    refine ⟨{ m₂ with freeSize := 0x7000 }, ?_, hchain₂, hstart₂, hend₂, rfl⟩
    rw [MemoryAllocator.free, if_neg (by rw [hcount₁]; decide),
      show 4 * poolSize = 254 + 2 from rfl, hdefine, Exec.ok_bind]
    dsimp only
    rw [hcount₂]
    rfl
  have hm : OverlapRun m := by
    refine .free 0x800 0x3800 hm₁ (.inr ⟨by decide, by decide, .before hchain₁ ?_ ?_ ?_⟩) hr
    · rw [hstart₁]
      decide
    · rw [hend₁]
    · rw [hstart₁, hcount₁]
      decide
  have hover : ∃ b ∈ m.freeBytes, 0x400 ≤ b ∧ b < 0x400 + 0x3C00 := by
    refine ⟨0x1000, ?_, by decide, by decide⟩
    rw [MemoryAllocator.freeBytes, hchain]
    exact ⟨m.pool.range 0, by simp, by simp only [MemoryEntryPool.range, hstart]; decide,
      by simp only [MemoryEntryPool.range, hend]; decide⟩
  refine ⟨m, hm, hover, (free_overlap_iff hm (by decide) hover).mpr ⟨by decide, .before hchain ?_ ?_ ?_⟩⟩
  · rw [hstart]
    decide
  · rw [hend]
  · rw [hstart, hcount]
    decide

/-- Two ranges are free, and the gap between them is given back with the first half of the second
one : both entries have these bytes. -/
theorem free_not_adds :
    ∃ m, OverlapRun m ∧ (∃ b ∈ m.freeBytes, 0x2000 ≤ b ∧ b < 0x2000 + 0x1800) ∧
    ¬m.AddsRange 0x2000 0x1800 := by
  have hfree : Disjoint (Set.Ico 0x1000 (0x1000 + 0x1000)) MemoryAllocator.new.freeBytes := by
    simp [Inv.new.freeBytes_eq, covered]
  have hfreed := @MemoryAllocator.Valid.freed .new _ 0x1000 0x1000 _ MemoryAllocator.valid_new hfree rfl
  have hm := OverlapRun.free 0x3000 0x1000 (.free (m := .new) 0x1000 0x1000 .new (.inl hfree) rfl)
      (.inl (by
    rw [hfreed.2, Inv.new.freeBytes_eq, List.map_nil, covered_nil, Set.empty_union]
    exact Set.disjoint_left.mpr fun b hb hb' => by
      simp only [Set.mem_Ico] at hb hb'
      omega)) rfl
  obtain ⟨m, m', hm, hr, hchain, hrange, hchain', hend, hstart⟩ : ∃ m m' : MemoryAllocator, OverlapRun m ∧
      m.free 0x2000 0x1800 = .ok (.ok (), m') ∧ m.chain = [0, 1] ∧ m.pool.range 1 = (0x3000, 0x3FFF) ∧
      m'.chain = [0, 1] ∧ m'.pool.endAddress 0 = 0x37FF ∧ m'.pool.startAddress 1 = 0x3000 :=
    ⟨_, _, hm, rfl, rfl, rfl, rfl, rfl, rfl⟩
  refine ⟨m, hm, ⟨0x3000, ?_, by decide, by decide⟩, ?_⟩
  · rw [MemoryAllocator.freeBytes, hchain]
    exact ⟨(0x3000, 0x3FFF), by simp [hrange], by decide, by decide⟩
  · rintro ⟨r, m'', hr', hadds⟩
    cases hr.symm.trans hr'
    have hsorted := hadds.1.sorted
    rw [hchain'] at hsorted
    have := List.rel_of_pairwise_cons hsorted (List.mem_singleton.mpr rfl)
    omega

end

end MiniVisor
