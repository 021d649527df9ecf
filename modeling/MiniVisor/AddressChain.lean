import MiniVisor.FreeLists

/-!
# The address chain of the allocator

`AddressChain p first L` says that the chain from `first` through `next` visits `L`, which are
exactly the entries in use, and that `previous` is its inverse. `Shape m L B key` adds the free
lists : an entry `i` of the chain is in the list `key i`. While `free` works, the list of an
entry can lag behind its range, so `key` is not yet the order of its size.

What the operations of the allocator do to the pool is said here once : `Shape.rechain`,
`Shape.deleteEntry` and `Shape.insertEntry`.
-/

namespace MiniVisor

open Machine

namespace MemoryEntryPool

/-- The range of an entry. -/
def range (p : MemoryEntryPool) (i : ℕ) : ℕ × ℕ :=
  (p.startAddress i, p.endAddress i)

/-- The links that put `y` between `a` and `c` in the address chain. -/
def chained (p : MemoryEntryPool) (y : ℕ) (a c : Option ℕ) : MemoryEntryPool :=
  { p with
    next := fun i => if i = y then c else if a = some i then some y else p.next i
    previous := fun i => if i = y then a else if c = some i then some y else p.previous i }

variable {p : MemoryEntryPool} {x y : ℕ} {first : Option ℕ}

theorem map_withRange {A C : List ℕ} (hd : (A ++ x :: C).Nodup) (s e : ℕ) :
    (A ++ x :: C).map (p.withRange x s e).range = A.map p.range ++ (s, e) :: C.map p.range := by
  have hx := (List.nodup_cons.mp (List.nodup_middle.mp hd)).1
  have hne : ∀ i ∈ A ++ C, (p.withRange x s e).range i = p.range i := by
    intro i hi
    have hix : i ≠ x := fun hc => hx (hc ▸ hi)
    simp [range, withRange, Function.update_of_ne hix]
  rw [List.map_append, List.map_cons, List.map_congr_left fun i hi => hne i (by simp [hi]),
    List.map_congr_left fun i hi => hne i (List.mem_append_right A hi)]
  simp [range, withRange]

theorem setRange_eq_ok {q : MemoryEntryPool} {s e : ℕ} (h : p.setRange x s e = .ok q) :
    s < e ∧ q = p.withRange x s e := by
  obtain ⟨hlt, h⟩ := assert_bind_eq_ok.mp h
  cases h
  exact ⟨hlt, rfl⟩

theorem createMemoryEntry_eq_some {q : MemoryEntryPool} (h : p.createMemoryEntry = some (y, q)) :
    y < poolSize ∧ p.enabled y = false ∧ q = p.fresh y := by
  obtain ⟨i, hi, hq⟩ := Option.map_eq_some_iff.mp h
  cases hq
  have hmem := List.mem_of_find?_eq_some hi
  have htest := List.find?_some hi
  exact ⟨List.mem_range.mp hmem, by simpa using htest, rfl⟩

end MemoryEntryPool

/-! ## The chain -/

/-- The chain from `first` visits `L`, the entries in use. -/
structure AddressChain (p : MemoryEntryPool) (first : Option ℕ) (L : List ℕ) : Prop where
  head : first = L.head?
  linked : Linked p.next p.previous none L none
  nodup : L.Nodup
  mem_iff : ∀ i, i ∈ L ↔ i < poolSize ∧ p.enabled i = true
  id : ∀ i ∈ L, p.id i = i

/-! ## Linking a new entry -/

namespace MemoryEntryPool

variable {p : MemoryEntryPool} {x y c : ℕ}

/-- `y` after the last entry. -/
theorem chainAfterMe_last (hx : p.id x = x) (hy : p.id y = y) (hn : p.next y = none)
    (hxy : x ≠ y) : p.chainAfterMe x y = p.chained y (some x) none := by
  simp only [chainAfterMe, setNext, setPrevious, chained, hx, hy]
  congr 1 <;> funext i
  · simp [Function.update_apply]
  · by_cases hi : i = y
    · simp [hi, hn, Function.update_of_ne (Ne.symm hxy)]
    · simp [Function.update_apply, hi, eq_comm]

/-- `y` before the first entry. -/
theorem chainAfterMe_first (hx : p.id x = x) (hy : p.id y = y) (hp : p.previous y = none)
    (hxy : x ≠ y) : p.chainAfterMe y x = p.chained y none (some x) := by
  simp only [chainAfterMe, setNext, setPrevious, chained, hx, hy]
  congr 1 <;> funext i
  · by_cases hi : i = y
    · simp [hi, hp, Function.update_of_ne (Ne.symm hxy)]
    · simp [Function.update_apply, hi, eq_comm]
  · simp [Function.update_apply]

/-- `y` after `x` and before `c`, in the order `define_used_memory` writes the links. -/
theorem chainAfterMe_between (hx : p.id x = x) (hy : p.id y = y) (hc : p.id c = c)
    (hxy : x ≠ y) : (p.chainAfterMe y c).chainAfterMe x y = p.chained y (some x) (some c) := by
  simp only [chainAfterMe, setNext, setPrevious, chained, hx, hy, hc]
  congr 1 <;> funext i
  · by_cases hi : i = y
    · simp [hi]
    · simp [Function.update_apply, hi, eq_comm]
  · by_cases hi : i = y
    · simp [hi, Function.update_of_ne (Ne.symm hxy)]
    · simp [Function.update_apply, hi, eq_comm]

/-- The same in the order of `define_free_memory`. -/
theorem setLinks_between (hx : p.id x = x) (hy : p.id y = y) (hc : p.id c = c) (hxy : x ≠ y) :
    ((p.setPrevious c (some (p.id y))).setNext y (some (p.id c))).chainAfterMe x y =
      p.chained y (some x) (some c) := by
  simp only [chainAfterMe, setNext, setPrevious, chained, hx, hy, hc]
  congr 1 <;> funext i
  · by_cases hi : i = y
    · simp [hi]
    · simp [Function.update_apply, hi, eq_comm]
  · by_cases hi : i = y
    · simp [hi, Function.update_of_ne (Ne.symm hxy)]
    · simp [Function.update_apply, hi, eq_comm]

end MemoryEntryPool

namespace AddressChain

variable {p : MemoryEntryPool} {first f : Option ℕ} {A C L : List ℕ} {x y : ℕ}

theorem lt (h : AddressChain p first L) (hx : x ∈ L) : x < poolSize :=
  ((h.mem_iff x).mp hx).1

theorem previous (h : AddressChain p first (A ++ x :: C)) : p.previous x = A.getLast? := by
  simpa using h.linked.node.1

theorem next (h : AddressChain p first (A ++ x :: C)) : p.next x = C.head? := by
  simpa using h.linked.node.2

theorem getPrevEntry (h : AddressChain p first (A ++ x :: C)) :
    p.getPrevEntry x = A.getLast? := by
  rw [MemoryEntryPool.getPrevEntry, h.previous]
  exact MemoryEntryPool.bind_getMemoryEntry fun i hi =>
    h.lt (by simp [List.mem_of_getLast? hi])

theorem getNextEntry (h : AddressChain p first (A ++ x :: C)) : p.getNextEntry x = C.head? := by
  rw [MemoryEntryPool.getNextEntry, h.next]
  exact MemoryEntryPool.bind_getMemoryEntry fun i hi =>
    h.lt (by simp [List.mem_of_head? hi])

theorem not_mem (h : AddressChain p first L) (hy : p.enabled y = false) : y ∉ L := by
  intro hc
  rw [((h.mem_iff y).mp hc).2] at hy
  cases hy

/-- `delete` takes `x` out. -/
theorem delete (h : AddressChain p first (A ++ x :: C)) (hf : f = (A ++ C).head?) :
    AddressChain (p.delete x) f (A ++ C) ∧ (p.delete x).range = p.range := by
  have hx := (List.nodup_cons.mp (List.nodup_middle.mp h.nodup)).1
  have hd := (List.nodup_cons.mp (List.nodup_middle.mp h.nodup)).2
  have hid : ∀ i ∈ A ++ C, p.id i = i := fun i hi => h.id i (by
    simp only [List.mem_append, List.mem_cons] at hi ⊢
    tauto)
  have hne : ∀ i ∈ A ++ C, i ≠ x := fun i hi hc => hx (hc ▸ hi)
  have hq : p.deleteFromNeighbours x = { p with
      next := fun i => if A.getLast? = some i then C.head? else p.next i
      previous := fun i => if C.head? = some i then A.getLast? else p.previous i } := by
    unfold MemoryEntryPool.deleteFromNeighbours
    rw [h.getPrevEntry, h.getNextEntry]
    cases hA : A.getLast? with
    | none =>
      cases hC : C.head? with
      | none => simp
      | some c =>
        simp only [MemoryEntryPool.setPrevious]
        congr 1
        funext i
        simp [Function.update_apply, eq_comm]
    | some a =>
      have ha := hid a (by simp [List.mem_of_getLast? hA])
      cases hC : C.head? with
      | none =>
        simp only [MemoryEntryPool.setNext]
        congr 1
        funext i
        simp [Function.update_apply, eq_comm]
      | some c =>
        have hc := hid c (by simp [List.mem_of_head? hC])
        simp only [MemoryEntryPool.chainAfterMe, MemoryEntryPool.setNext,
          MemoryEntryPool.setPrevious, ha, hc]
        congr 1 <;> funext i <;> simp [Function.update_apply, eq_comm]
  unfold MemoryEntryPool.delete
  rw [hq]
  refine ⟨⟨hf, ?_, hd, fun i => ?_, hid⟩, rfl⟩
  · refine h.linked.delete h.nodup (fun i hi => ?_) fun i hi => ?_
    · simp [MemoryEntryPool.setNext, MemoryEntryPool.setPrevious, Function.update_of_ne (hne i hi)]
    · simp [MemoryEntryPool.setNext, MemoryEntryPool.setPrevious, Function.update_of_ne (hne i hi)]
  · by_cases hi : i = x
    · simp only [hi, hx, MemoryEntryPool.setNext, MemoryEntryPool.setPrevious]
      simp
    · have := h.mem_iff i
      simp only [List.mem_append, List.mem_cons, hi, false_or] at this
      simpa [MemoryEntryPool.setNext, MemoryEntryPool.setPrevious, Function.update_of_ne hi]
        using this

/-- A new entry `y`, linked between `A` and `C`. -/
theorem insert (h : AddressChain p first (A ++ C)) (hy : y < poolSize) (he : p.enabled y = false)
    (hf : f = (A ++ y :: C).head?) :
    AddressChain ((p.fresh y).chained y A.getLast? C.head?) f (A ++ y :: C) := by
  have hyL : y ∉ A ++ C := h.not_mem he
  have hd : (A ++ y :: C).Nodup := List.nodup_middle.mpr (List.nodup_cons.mpr ⟨hyL, h.nodup⟩)
  refine ⟨hf, ?_, hd, fun i => ?_, fun i hi => ?_⟩
  · refine h.linked.insert hd (fun i _ => ?_) fun i _ => ?_
    · by_cases hi : i = y <;> simp [MemoryEntryPool.chained, MemoryEntryPool.fresh, hi]
    · by_cases hi : i = y <;> simp [MemoryEntryPool.chained, MemoryEntryPool.fresh, hi]
  · by_cases hi : i = y
    · simp [hi, hy, MemoryEntryPool.chained, MemoryEntryPool.fresh]
    · have := h.mem_iff i
      simp only [List.mem_append] at this
      simpa [MemoryEntryPool.chained, MemoryEntryPool.fresh, hi] using this
  · by_cases hiy : i = y
    · simp [hiy, MemoryEntryPool.chained, MemoryEntryPool.fresh]
    · have hmem : i ∈ A ++ C := by
        simp only [List.mem_append, List.mem_cons, hiy, false_or] at hi ⊢
        exact hi
      simpa [MemoryEntryPool.chained, MemoryEntryPool.fresh, hiy] using h.id i hmem

/-! ## Searches -/

theorem length_le (h : AddressChain p first L) : L.length ≤ poolSize := by
  have hsub : L ⊆ List.range poolSize := fun i hi => List.mem_range.mpr (h.lt hi)
  simpa using h.nodup.length_le_of_subset hsub

/-- `search_entry_previous_address_mut` from an entry that starts before the address. The last entry
that does is the result, unless it is the last of all and goes on behind the address. -/
theorem previousStep_loop (h : AddressChain p first L) {address : ℕ} :
    ∀ (A₁ : List ℕ) (A₀ : List ℕ) (x w fuel : ℕ), L = A₀ ++ x :: (A₁ ++ C) → (x :: A₁).getLast? = some w →
      (∀ i ∈ x :: A₁, p.startAddress i < address) →
      (∀ c, C.head? = some c → address ≤ p.startAddress c) → A₁.length + 1 < fuel →
      loop (p.previousStep address) fuel x =
        .ok (if C = [] ∧ address < p.endAddress w then p.getPrevEntry w else some w)
  | _, _, _, _, 0, _, _, _, _, hfuel => by omega
  | [], A₀, x, w, fuel + 1, hL, hw, hA, hC, hfuel => by
    subst hL
    obtain rfl : x = w := by simpa using hw
    have hn := h.getNextEntry
    cases C with
    | nil =>
      simp only [List.nil_append, List.head?_nil] at hn
      by_cases hend : p.endAddress x ≤ address
      · simp [loop, MemoryEntryPool.previousStep, hA x (by simp), hn, hend, not_lt.mpr hend]
      · simp [loop, MemoryEntryPool.previousStep, hA x (by simp), hn, hend, not_le.mp hend]
    | cons c C =>
      simp only [List.nil_append, List.head?_cons] at hn
      have hp : p.getPrevEntry c = some x := by
        have := AddressChain.getPrevEntry (A := A₀ ++ [x]) (C := C) (x := c) (by simpa using h)
        simpa using this
      obtain ⟨fuel, rfl⟩ : ∃ n, fuel = n + 1 := ⟨fuel - 1, by simp at hfuel; omega⟩
      simp [loop, MemoryEntryPool.previousStep, hA x (by simp), hn, hp, not_lt.mpr (hC c rfl)]
  | a :: A₁, A₀, x, w, fuel + 1, hL, hw, hA, hC, hfuel => by
    have hn : p.getNextEntry x = some a := by
      have := (hL ▸ h).getNextEntry
      simpa using this
    have ih := previousStep_loop h A₁ (A₀ ++ [x]) a w fuel (by simpa using hL)
      (by rwa [List.getLast?_cons_cons] at hw) (fun i hi => hA i (by simp_all)) hC
      (by simp at hfuel; omega)
    rw [← ih]
    simp [loop, MemoryEntryPool.previousStep, hA x (by simp), hn]

/-- What `search_entry_previous_address_mut` returns if the entries up to `w` start before the address. -/
theorem searchEntryPreviousAddress_eq {w : ℕ} (h : AddressChain p first (A ++ w :: C)) {address : ℕ}
    (hA : ∀ i ∈ A ++ [w], p.startAddress i < address)
    (hC : ∀ c, C.head? = some c → address ≤ p.startAddress c) :
    p.searchEntryPreviousAddress first address =
      .ok (if C = [] ∧ address < p.endAddress w then A.getLast? else some w) := by
  have hlen := h.length_le
  rw [← h.getPrevEntry]
  unfold MemoryEntryPool.searchEntryPreviousAddress
  rw [h.head, MemoryEntryPool.bind_getMemoryEntry fun i hi => h.lt (List.mem_of_head? hi)]
  cases A with
  | nil => exact previousStep_loop h [] [] w w _ (by simp) (by simp) hA hC (by simp [poolSize])
  | cons a A =>
    exact previousStep_loop h (A ++ [w]) [] a w _ (by simp) (List.getLast?_concat (l := a :: A)) hA hC
      (by simp at hlen ⊢; omega)

/-- `search_entry_previous_address_mut` finds the last entry that starts before the address,
if those entries also end there. -/
theorem searchEntryPreviousAddress (h : AddressChain p first (A ++ C)) {address : ℕ}
    (hA : ∀ i ∈ A, p.startAddress i < address ∧ p.endAddress i ≤ address)
    (hC : ∀ c, C.head? = some c → address ≤ p.startAddress c) :
    p.searchEntryPreviousAddress first address = .ok A.getLast? := by
  rcases List.eq_nil_or_concat A with rfl | ⟨A, w, rfl⟩
  · rw [List.nil_append] at h
    unfold MemoryEntryPool.searchEntryPreviousAddress
    rw [h.head, MemoryEntryPool.bind_getMemoryEntry fun i hi => h.lt (List.mem_of_head? hi)]
    cases C with
    | nil => rfl
    | cons c C =>
      have hp : p.getPrevEntry c = none := h.getPrevEntry (A := [])
      simp [loop, MemoryEntryPool.previousStep, not_lt.mpr (hC c rfl), hp]
  · simp only [List.concat_eq_append, List.append_assoc, List.cons_append, List.nil_append] at h hA ⊢
    rw [h.searchEntryPreviousAddress_eq (fun i hi => (hA i hi).1) hC,
      if_neg fun hc => absurd hc.2 (not_lt.mpr (hA w (by simp)).2), List.getLast?_concat]

/-- `search_entry_containing_address_mut` from an entry at or before `x`. -/
theorem containingStep_loop (h : AddressChain p first L) {address : ℕ}
    (hx : p.startAddress x ≤ address ∧ address ≤ p.endAddress x) :
    ∀ (A₁ : List ℕ) (A₀ : List ℕ) (a fuel : ℕ), L = A₀ ++ a :: (A₁ ++ C) →
      (a :: A₁).getLast? = some x →
      (∀ i ∈ a :: A₁, i ≠ x → p.startAddress i < address ∧ p.endAddress i < address) →
      A₁.length < fuel → loop (p.containingStep address) fuel a = .ok (some x)
  | _, _, _, 0, _, _, _, hfuel => by omega
  | [], A₀, a, fuel + 1, hL, hlast, hA, hfuel => by
    simp only [List.getLast?_singleton, Option.some.injEq] at hlast
    subst hlast
    have : ¬(p.startAddress a < address ∧ p.endAddress a < address) := by omega
    simp [loop, MemoryEntryPool.containingStep, this, hx]
  | b :: A₁, A₀, a, fuel + 1, hL, hlast, hA, hfuel => by
    have hn : p.getNextEntry a = some b := by
      have := (hL ▸ h).getNextEntry
      simpa using this
    rw [List.getLast?_cons_cons] at hlast
    have hax : a ≠ x := by
      intro hc
      have hd := (List.nodup_cons.mp (List.nodup_append.mp (hL ▸ h.nodup)).2.1).1
      exact hd (hc ▸ List.mem_append_left _ (List.mem_of_getLast? hlast))
    have ih := containingStep_loop h hx A₁ (A₀ ++ [a]) b fuel (by simpa using hL) hlast
      (fun i hi => hA i (by simp_all)) (by simp at hfuel; omega)
    rw [← ih]
    simp [loop, MemoryEntryPool.containingStep, hA a (by simp) hax, hn]

/-- `search_entry_containing_address_mut` finds the entry that contains the address. -/
theorem searchEntryContainingAddress (h : AddressChain p first (A ++ x :: C)) {address : ℕ}
    (hA : ∀ i ∈ A, p.startAddress i < address ∧ p.endAddress i < address)
    (hx : p.startAddress x ≤ address ∧ address ≤ p.endAddress x) :
    p.searchEntryContainingAddress first address = .ok (some x) := by
  have hlen := h.length_le
  unfold MemoryEntryPool.searchEntryContainingAddress
  rw [h.head, MemoryEntryPool.bind_getMemoryEntry fun i hi => h.lt (List.mem_of_head? hi)]
  cases A with
  | nil =>
    exact containingStep_loop (C := C) h hx [] [] x _ (by simp) rfl (by simp) (by simp)
  | cons a A =>
    refine containingStep_loop (C := C) h hx (A ++ [x]) [] a _ (by simp)
      (by rw [← List.cons_append, List.getLast?_concat]) (fun i hi hix => hA i ?_)
      (by simp at hlen ⊢; omega)
    simpa [hix] using hi

/-- An entry that `search_entry_containing_address_mut` returns contains the address. -/
theorem mem_of_searchEntryContainingAddress (h : AddressChain p first L) {address : ℕ}
    (hs : p.searchEntryContainingAddress first address = .ok (some x)) :
    x ∈ L ∧ p.startAddress x ≤ address ∧ address ≤ p.endAddress x := by
  unfold MemoryEntryPool.searchEntryContainingAddress at hs
  rw [h.head, MemoryEntryPool.bind_getMemoryEntry fun i hi => h.lt (List.mem_of_head? hi)] at hs
  cases hL : L.head? with
  | none =>
    rw [hL] at hs
    cases hs
  | some i =>
    simp only [hL] at hs
    refine loop_ok (I := fun i => i ∈ L) (C := fun _ => True)
      (Q := fun r => ∀ x, r = some x → x ∈ L ∧ p.startAddress x ≤ address ∧
        address ≤ p.endAddress x) ?_ ?_ _ i (List.mem_of_head? hL) (throughout_true ..) hs x rfl
    · intro i j hi _ hstep
      obtain ⟨A, C, rfl⟩ := List.append_of_mem hi
      simp only [MemoryEntryPool.containingStep, h.getNextEntry] at hstep
      cases hC : C.head? with
      | none =>
        rw [hC] at hstep
        split_ifs at hstep <;> cases hstep
      | some c =>
        rw [hC] at hstep
        split_ifs at hstep <;> cases hstep
        simp [List.mem_of_head? hC]
    · rintro i r hi _ hstep y rfl
      simp only [MemoryEntryPool.containingStep] at hstep
      split_ifs at hstep with h1 h2
      · split at hstep <;> cases hstep
      · cases hstep
        exact ⟨hi, h2⟩
      · cases hstep

end AddressChain

/-! ## The chain with the free lists -/

/-- The chain visits `L`, the free list of order `k` is `B k`, and `key` is the order of the
list an entry is in. -/
structure Shape (m : MemoryAllocator) (L : List ℕ) (B : ℕ → List ℕ) (key : ℕ → Option ℕ) :
    Prop where
  chain : AddressChain m.pool m.firstEntry L
  lists : FreeLists (m.pool, m.freeList) B
  listed : ∀ i k, i ∈ B k ↔ i ∈ L ∧ key i = some k

/-- `m'` differs from `m` in the free lists only. -/
def SameButLists (m m' : MemoryAllocator) : Prop :=
  ∃ listPrev listNext freeList,
    m' = { m with pool := { m.pool with listPrev, listNext }, freeList }

namespace Shape

variable {m m' : MemoryAllocator} {A C L : List ℕ} {B : ℕ → List ℕ} {key : ℕ → Option ℕ} {x y : ℕ}

theorem withRange (h : Shape m L B key) (x s e : ℕ) :
    Shape { m with pool := m.pool.withRange x s e } L B key :=
  ⟨⟨h.chain.head, h.chain.linked, h.chain.nodup, h.chain.mem_iff, h.chain.id⟩,
    ⟨h.lists.head, h.lists.linked, h.lists.nodup, h.lists.unique, h.lists.valid⟩, h.listed⟩

theorem withFreeSize (h : Shape m L B key) (freeSize : ℕ) : Shape { m with freeSize } L B key :=
  ⟨h.chain, h.lists, h.listed⟩

/-- `chain_entry_to_free_list` on an entry of the chain. -/
theorem rechain {old : Option ℕ} (h : Shape m L B key) (hx : x ∈ L)
    (hold : key x = old.map sizeToPageOrder) (he : m.rechain x old = .ok m') :
    SameButLists m m' ∧ ∃ B', Shape m' L B'
      (Function.update key x (some (sizeToPageOrder (m.pool.size x)))) := by
  obtain ⟨⟨pool, freeList⟩, hc, he⟩ := Exec.bind_eq_ok.mp he
  cases he
  obtain ⟨⟨lp, ln, hsame⟩, B', hB', hm⟩ := chainEntryToFreeList_spec h.lists
    ⟨h.chain.lt hx, h.chain.id x hx⟩ (fun j => by rw [h.listed, hold]; simp [hx]) hc
  simp only at hsame
  subst hsame
  refine ⟨⟨lp, ln, freeList, rfl⟩, B', ⟨?_, hB', fun i k => ?_⟩⟩
  · exact ⟨h.chain.head, h.chain.linked, h.chain.nodup, h.chain.mem_iff, h.chain.id⟩
  · rw [hm i k]
    split_ifs with hi
    · subst hi
      simp [hx, eq_comm]
    · rw [h.listed, Function.update_of_ne hi]

/-- `unchain_entry_from_free_list` and `delete` on an entry of the chain. -/
theorem deleteEntry {f : Option ℕ} (h : Shape m (A ++ x :: C) B key)
    (hx : key x = some (sizeToPageOrder (m.pool.size x)))
    (hf : f = (A ++ C).head?) (he : MemoryAllocator.deleteEntry { m with firstEntry := f } x = .ok m') :
    m'.freeSize = m.freeSize ∧ m'.pool.range = m.pool.range ∧ ∃ B', Shape m' (A ++ C) B' key := by
  obtain ⟨⟨pool, freeList⟩, hc, he⟩ := Exec.bind_eq_ok.mp he
  cases he
  obtain ⟨⟨lp, ln, hsame⟩, B', hB', hm⟩ := unchainEntryFromFreeList_spec h.lists
    (fun j => by rw [h.listed, hx]; simp [eq_comm]) hc
  simp only at hsame
  subst hsame
  have hchain : AddressChain { m.pool with listPrev := lp, listNext := ln } m.firstEntry
      (A ++ x :: C) :=
    ⟨h.chain.head, h.chain.linked, h.chain.nodup, h.chain.mem_iff, h.chain.id⟩
  obtain ⟨hdel, hrange⟩ := hchain.delete hf
  have hxAC := (List.nodup_cons.mp (List.nodup_middle.mp h.chain.nodup)).1
  refine ⟨rfl, hrange, B', ⟨hdel, hB'.delete x, fun i k => ?_⟩⟩
  rw [hm i k, h.listed]
  constructor
  · rintro ⟨hix, hi, hk⟩
    simp only [List.mem_append, List.mem_cons, hix, false_or] at hi
    exact ⟨List.mem_append.mpr hi, hk⟩
  · rintro ⟨hi, hk⟩
    have hix : i ≠ x := fun hc => hxAC (hc ▸ hi)
    simp only [List.mem_append] at hi
    exact ⟨hix, by simp only [List.mem_append, List.mem_cons]; tauto, hk⟩

/-- A new entry in the chain, in no free list yet. -/
theorem insertEntry {f : Option ℕ} (h : Shape m (A ++ C) B key) (hy : y < poolSize)
    (he : m.pool.enabled y = false) (hf : f = (A ++ y :: C).head?) :
    Shape { m with firstEntry := f, pool := (m.pool.fresh y).chained y A.getLast? C.head? }
      (A ++ y :: C) B (Function.update key y none) := by
  have hyL : y ∉ A ++ C := h.chain.not_mem he
  have hyB : ∀ k, y ∉ B k := fun k hc => hyL ((h.listed y k).mp hc).1
  have hne : ∀ {i k}, i ∈ B k → i ≠ y := fun hi hc => hyB _ (hc ▸ hi)
  refine ⟨h.chain.insert hy he hf, ⟨h.lists.head, fun k => ?_, h.lists.nodup, h.lists.unique,
    fun hi => ⟨(h.lists.valid hi).1, ?_⟩⟩, fun i k => ?_⟩
  · refine (h.lists.linked k).congr (h.lists.nodup k) (fun i hi => ?_) fun i hi => ?_
    · exact Function.update_of_ne (hne hi) _ _
    · exact Function.update_of_ne (hne hi) _ _
  · exact (Function.update_of_ne (hne hi) _ _).trans (h.lists.valid hi).2
  · by_cases hi : i = y
    · subst hi
      exact iff_of_false (hyB k) (by simp)
    · rw [h.listed, Function.update_of_ne hi]
      simp [hi]

end Shape

end MiniVisor
