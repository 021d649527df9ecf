import MiniVisor.MemoryAllocator

/-!
# The free lists of the allocator

`FreeLists pl B` says that the free list of order `k` holds the entries `B k`, in this order.
Chaining an entry and taking it out keep it, and change which list the entry is in and nothing
else : `chainEntryToFreeList_spec` and `unchainEntryFromFreeList_spec` are all that the rest of
the development knows of the free lists.
-/

namespace MiniVisor

open Machine

namespace MemoryEntryPool

variable {p : MemoryEntryPool} {x i : ℕ}

/-- The size of an entry. -/
def size (p : MemoryEntryPool) (i : ℕ) : ℕ :=
  p.endAddress i - p.startAddress i + 1

theorem getSize_eq_ok {s : ℕ} (h : p.getSize i = .ok s) : s = p.size i := by
  obtain ⟨d, hd, hs⟩ := Exec.bind_eq_ok.mp h
  rw [(checkedAdd_eq_ok.mp hs).2, (checkedSub_eq_ok.mp hd).2, size]

theorem getMemoryEntry_of_lt (h : i < poolSize) : getMemoryEntry i = some i :=
  if_pos h

theorem bind_getMemoryEntry {o : Option ℕ} (h : ∀ i, o = some i → i < poolSize) :
    o.bind getMemoryEntry = o := by
  cases o with
  | none => rfl
  | some i => exact getMemoryEntry_of_lt (h i rfl)

/-! ## Links of the free lists -/

/-- The links that put `x` between `a` and `c`. -/
def linked (p : MemoryEntryPool) (x : ℕ) (a c : Option ℕ) : MemoryEntryPool :=
  { p with
    listNext := fun i => if i = x then c else if a = some i then some x else p.listNext i
    listPrev := fun i => if i = x then a else if c = some i then some x else p.listPrev i }

/-- The links without `x`. -/
def unlinked (p : MemoryEntryPool) (x : ℕ) : MemoryEntryPool :=
  { p with
    listNext := fun i =>
      if i = x then none else if p.listPrev x = some i then p.listNext x else p.listNext i
    listPrev := fun i =>
      if i = x then none else if p.listNext x = some i then p.listPrev x else p.listPrev i }

theorem unchainFromFreelist_eq (hp : ∀ a, p.listPrev x = some a → a < poolSize ∧ a ≠ x)
    (hn : ∀ c, p.listNext x = some c → c < poolSize) :
    p.unchainFromFreelist x = p.unlinked x := by
  have hprev : p.unchainPrev x = { p with
      listNext := fun i => if p.listPrev x = some i then p.listNext x else p.listNext i } := by
    unfold unchainPrev
    rw [bind_getMemoryEntry fun a ha => (hp a ha).1]
    cases h : p.listPrev x with
    | none => simp
    | some a =>
      simp only [setListNext, Option.some.injEq]
      congr 1
      funext i
      simp [Function.update_apply, eq_comm]
  have hx : (if p.listPrev x = some x then p.listNext x else p.listNext x) = p.listNext x :=
    ite_self _
  unfold unchainFromFreelist unchainNext
  rw [hprev]
  simp only [hx]
  rw [bind_getMemoryEntry hn]
  cases h : p.listNext x with
  | none =>
    simp only [setListNext, setListPrev, unlinked, h]
    congr 1 <;> funext i <;> simp [Function.update_apply]
  | some c =>
    simp only [setListNext, setListPrev, unlinked, h]
    congr 1 <;> funext i <;> simp [Function.update_apply, eq_comm]

theorem linked_none (hn : p.listNext x = none) (hp : p.listPrev x = none) :
    p.linked x none none = p := by
  ext i : 2 <;> try rfl
  · by_cases hi : i = x
    · simp [linked, hi, hp]
    · simp [linked, hi]
  · by_cases hi : i = x
    · simp [linked, hi, hn]
    · simp [linked, hi]

theorem linkFirst_eq {c : ℕ} (hx : p.id x = x) (hc : p.id c = c) (hp : p.listPrev x = none)
    (hcx : c ≠ x) : p.linkFirst x c = p.linked x none (some c) := by
  simp only [linkFirst, setListPrev, setListNext, linked, hx, hc]
  congr 1 <;> funext i
  · by_cases hi : i = x
    · simp [hi, hp, Function.update_of_ne (Ne.symm hcx)]
    · simp [Function.update_apply, hi, eq_comm]
  · simp [Function.update_apply]

theorem linkBetween_eq {a c : ℕ} (hx : p.id x = x) (ha : p.id a = a) (hc : p.id c = c)
    (hcx : c ≠ x) : p.linkBetween x a c = p.linked x (some a) (some c) := by
  simp only [linkBetween, setListPrev, setListNext, linked, hx, ha, hc]
  congr 1 <;> funext i
  · by_cases hi : i = x
    · simp [hi, Function.update_of_ne (Ne.symm hcx)]
    · simp [Function.update_apply, hi, eq_comm]
  · simp [Function.update_apply, eq_comm]

theorem linkLast_eq {a : ℕ} (hx : p.id x = x) (ha : p.id a = a) (hn : p.listNext x = none)
    (hax : a ≠ x) : p.linkLast x a = p.linked x (some a) none := by
  simp only [linkLast, setListPrev, setListNext, linked, hx, ha]
  congr 1 <;> funext i
  · simp [Function.update_apply]
  · by_cases hi : i = x
    · simp [hi, hn, Function.update_of_ne (Ne.symm hax)]
    · simp [Function.update_apply, hi, eq_comm]

end MemoryEntryPool

/-! ## The invariant -/

/-- The free list of order `k` is `B k`. -/
structure FreeLists (pl : PoolLists) (B : ℕ → List ℕ) : Prop where
  head : ∀ k, pl.2 k = (B k).head?
  linked : ∀ k, Linked pl.1.listNext pl.1.listPrev none (B k) none
  nodup : ∀ k, (B k).Nodup
  unique : ∀ {k k' i}, i ∈ B k → i ∈ B k' → k = k'
  valid : ∀ {k i}, i ∈ B k → i < poolSize ∧ pl.1.id i = i

/-- `x` is now in the free list of order `k` and in no other. -/
def Moved (B B' : ℕ → List ℕ) (x k : ℕ) : Prop :=
  ∀ i j, i ∈ B' j ↔ if i = x then j = k else i ∈ B j

/-- `pl'` differs from `pl` in the free lists only. -/
def SameEntries (pl pl' : PoolLists) : Prop :=
  ∃ listPrev listNext, pl'.1 = { pl.1 with listPrev, listNext }

theorem SameEntries.refl (pl : PoolLists) : SameEntries pl pl :=
  ⟨_, _, rfl⟩

theorem SameEntries.trans {pl pl' pl'' : PoolLists} (h : SameEntries pl pl')
    (h' : SameEntries pl' pl'') : SameEntries pl pl'' := by
  obtain ⟨a, b, h⟩ := h
  obtain ⟨c, d, h'⟩ := h'
  exact ⟨c, d, by rw [h', h]⟩

theorem unlinked_sameEntries (pl : PoolLists) (x : ℕ) (heads : ℕ → Option ℕ) :
    SameEntries pl (pl.1.unlinked x, heads) :=
  ⟨_, _, rfl⟩

section

variable {pl pl' : PoolLists} {B : ℕ → List ℕ} {A C : List ℕ} {x k : ℕ}

theorem FreeLists.insert (h : FreeLists pl B) (hk : B k = A ++ C) (hx : ∀ j, x ∉ B j)
    (hv : x < poolSize ∧ pl.1.id x = x) {heads : ℕ → Option ℕ}
    (hh : ∀ j, heads j = if j = k then (A ++ x :: C).head? else pl.2 j) :
    FreeLists (pl.1.linked x A.getLast? C.head?, heads)
      (Function.update B k (A ++ x :: C)) := by
  have hxk : x ∉ A ++ C := hk ▸ hx k
  have hd : (A ++ x :: C).Nodup := by
    have := hk ▸ h.nodup k
    exact List.nodup_middle.mpr (List.nodup_cons.mpr ⟨hxk, this⟩)
  have hmem : ∀ {i j}, i ∈ Function.update B k (A ++ x :: C) j → i = x ∧ j = k ∨ i ∈ B j := by
    intro i j hi
    by_cases hj : j = k
    · subst hj
      rw [Function.update_self] at hi
      rw [hk]
      simp only [List.mem_append, List.mem_cons] at hi ⊢
      tauto
    · rw [Function.update_of_ne hj] at hi
      exact .inr hi
  constructor
  · intro j
    refine (hh j).trans ?_
    by_cases hj : j = k
    · simp [hj]
    · simp [hj, h.head j]
  · intro j
    by_cases hj : j = k
    · subst hj
      rw [Function.update_self]
      refine (hk ▸ h.linked j).insert hd (fun i _ => ?_) fun i _ => ?_
      · simp [MemoryEntryPool.linked]
      · simp [MemoryEntryPool.linked]
    · -- The other lists share no entry with this one.
      rw [Function.update_of_ne hj]
      have hother : ∀ i ∈ B j, i ≠ x ∧ i ∉ A ++ C := by
        intro i hi
        exact ⟨fun hc => hx j (hc ▸ hi), fun hc => hj (h.unique hi (hk ▸ hc))⟩
      refine (h.linked j).congr (h.nodup j) (fun i hi => ?_) fun i hi => ?_
      · have hne : A.getLast? ≠ some i := fun hc =>
          (hother i hi).2 (List.mem_append_left _ (List.mem_of_getLast? hc))
        simp [MemoryEntryPool.linked, (hother i hi).1, hne]
      · have hne : C.head? ≠ some i := fun hc =>
          (hother i hi).2 (List.mem_append_right _ (List.mem_of_head? hc))
        simp [MemoryEntryPool.linked, (hother i hi).1, hne]
  · intro j
    by_cases hj : j = k
    · subst hj
      rwa [Function.update_self]
    · rw [Function.update_of_ne hj]
      exact h.nodup j
  · intro j j' i hi hi'
    rcases hmem hi with ⟨hix, hj⟩ | hi <;> rcases hmem hi' with ⟨hix', hj'⟩ | hi'
    · exact hj.trans hj'.symm
    · exact absurd (hix ▸ hi') (hx _)
    · exact absurd (hix' ▸ hi) (hx _)
    · exact h.unique hi hi'
  · intro j i hi
    rcases hmem hi with ⟨rfl, rfl⟩ | hi
    · exact hv
    · exact h.valid hi

theorem mem_of_mem_remove (hk : B k = A ++ x :: C) {i j : ℕ}
    (hi : i ∈ Function.update B k (A ++ C) j) : i ∈ B j := by
  by_cases hj : j = k
  · subst hj
    rw [Function.update_self] at hi
    rw [hk]
    simp only [List.mem_append, List.mem_cons] at hi ⊢
    tauto
  · rwa [Function.update_of_ne hj] at hi

theorem FreeLists.not_mem_remove (h : FreeLists pl B) (hk : B k = A ++ x :: C) (j : ℕ) :
    x ∉ Function.update B k (A ++ C) j := by
  intro hj
  obtain rfl : j = k := h.unique (mem_of_mem_remove hk hj) (by simp [hk])
  rw [Function.update_self] at hj
  exact (List.nodup_cons.mp (List.nodup_middle.mp (hk ▸ h.nodup j))).1 hj

theorem FreeLists.remove (h : FreeLists pl B) (hk : B k = A ++ x :: C) :
    FreeLists (unchainFromOrder pl x k) (Function.update B k (A ++ C)) ∧
      unchainFromOrder pl x k = (pl.1.unlinked x, fun j => if j = k then (A ++ C).head? else pl.2 j) := by
  have hd : (A ++ x :: C).Nodup := hk ▸ h.nodup k
  have hxk : x ∉ A ++ C := (List.nodup_cons.mp (List.nodup_middle.mp hd)).1
  have hl : Linked pl.1.listNext pl.1.listPrev none (A ++ x :: C) none := hk ▸ h.linked k
  obtain ⟨hp, hn⟩ := hl.node
  rw [Option.or_none] at hp hn
  have hlt : ∀ {i}, i ∈ A ++ x :: C → i < poolSize ∧ pl.1.id i = i := fun hi => h.valid (hk ▸ hi)
  have heq : unchainFromOrder pl x k =
      (pl.1.unlinked x, fun j => if j = k then (A ++ C).head? else pl.2 j) := by
    unfold unchainFromOrder
    rw [MemoryEntryPool.unchainFromFreelist_eq]
    · refine Prod.ext rfl (funext fun j => ?_)
      have hid : pl.1.id x = x := (hlt (by simp)).2
      rw [hid, h.head k, hk, hn]
      cases A with
      | nil =>
        by_cases hj : j = k <;> simp [hj]
      | cons a A =>
        have hax : a ≠ x := fun hc => hxk (by simp [hc])
        by_cases hj : j = k
        · simp [hj, hax, h.head k, hk]
        · simp [hj, hax]
    · intro a ha
      have hmem := List.mem_of_getLast? (hp ▸ ha)
      exact ⟨(hlt (by simp [hmem])).1, fun hc => hxk (by simp [← hc, hmem])⟩
    · intro c hc
      have hmem := List.mem_of_head? (hn ▸ hc)
      exact (hlt (by simp [hmem])).1
  refine ⟨?_, heq⟩
  rw [heq]
  constructor
  · intro j
    by_cases hj : j = k
    · simp [hj]
    · simp [hj, h.head j]
  · intro j
    by_cases hj : j = k
    · subst hj
      rw [Function.update_self]
      refine hl.delete hd (fun i hi => ?_) fun i hi => ?_
      · have hix : i ≠ x := fun hc => hxk (hc ▸ hi)
        simp [MemoryEntryPool.unlinked, hix, hp, hn]
      · have hix : i ≠ x := fun hc => hxk (hc ▸ hi)
        simp [MemoryEntryPool.unlinked, hix, hp, hn]
    · rw [Function.update_of_ne hj]
      have hother : ∀ i ∈ B j, i ∉ A ++ x :: C := fun i hi hc => hj (h.unique hi (hk ▸ hc))
      refine (h.linked j).congr (h.nodup j) (fun i hi => ?_) fun i hi => ?_
      · have hix : i ≠ x := fun hc => hother i hi (by simp [hc])
        have hne : A.getLast? ≠ some i := fun hc =>
          hother i hi (List.mem_append_left _ (List.mem_of_getLast? hc))
        simp [MemoryEntryPool.unlinked, hix, hp, hne]
      · have hix : i ≠ x := fun hc => hother i hi (by simp [hc])
        have hne : C.head? ≠ some i := fun hc =>
          hother i hi (List.mem_append_right _ (List.mem_cons_of_mem _ (List.mem_of_head? hc)))
        simp [MemoryEntryPool.unlinked, hix, hn, hne]
  · intro j
    by_cases hj : j = k
    · subst hj
      rw [Function.update_self]
      exact (List.nodup_cons.mp (List.nodup_middle.mp hd)).2
    · rw [Function.update_of_ne hj]
      exact h.nodup j
  · intro j j' i hi hi'
    refine h.unique (i := i) ?_ ?_
    · exact mem_of_mem_remove hk hi
    · exact mem_of_mem_remove hk hi'
  · intro j i hi
    exact h.valid (mem_of_mem_remove hk hi)

/-! ## Chaining and unchaining an entry -/

/-- The loop of `chain_entry_to_free_list` links `x` somewhere after `a`, in front of the first
entry that is not smaller. -/
theorem chainStep_loop (hx : pl.1.id x = x) (hxn : pl.1.listNext x = none) :
    ∀ (C : List ℕ) (A : List ℕ) (a fuel : ℕ) {p : MemoryEntryPool},
      Linked pl.1.listNext pl.1.listPrev none (A ++ a :: C) none → x ∉ A ++ a :: C →
      (∀ i ∈ A ++ a :: C, i < poolSize ∧ pl.1.id i = i) →
      (∀ i ∈ A ++ [a], pl.1.size i < pl.1.size x) → loop (pl.1.chainStep x) fuel a = .ok p →
      ∃ A' C', A ++ a :: C = A' ++ C' ∧ A' ≠ [] ∧ p = pl.1.linked x A'.getLast? C'.head? ∧
        (∀ i ∈ A', pl.1.size i < pl.1.size x) ∧ ∀ c ∈ C'.head?, pl.1.size x ≤ pl.1.size c
  | _, _, _, 0, _, _, _, _, _, h => by simp [loop] at h
  | [], A, a, fuel + 1, p, hl, hxl, hv, hsmall, h => by
    have hn : pl.1.listNext a = none := hl.node.2
    have hax : a ≠ x := fun hc => hxl (by simp [hc])
    simp only [loop, MemoryEntryPool.chainStep, hn, Option.bind_none, Except.ok.injEq] at h
    refine ⟨A ++ [a], [], by simp, by simp, ?_, hsmall, by simp⟩
    rw [← h, MemoryEntryPool.linkLast_eq hx (hv a (by simp)).2 hxn hax]
    simp
  | c :: C, A, a, fuel + 1, p, hl, hxl, hv, hsmall, h => by
    have hn : pl.1.listNext a = some c := hl.node.2
    have hc := hv c (by simp)
    have hcx : c ≠ x := fun hc => hxl (by simp [hc])
    cases hb : pl.1.chainStep x a with
    | error t => simp [loop, hb] at h
    | ok o =>
      have hstep := hb
      simp only [MemoryEntryPool.chainStep, hn, Option.bind_some,
        MemoryEntryPool.getMemoryEntry_of_lt hc.1] at hstep
      obtain ⟨s, hsc, hstep⟩ := Exec.bind_eq_ok.mp hstep
      obtain ⟨t, htx, hstep⟩ := Exec.bind_eq_ok.mp hstep
      obtain rfl := MemoryEntryPool.getSize_eq_ok hsc
      obtain rfl := MemoryEntryPool.getSize_eq_ok htx
      split_ifs at hstep with hs <;> cases hstep
      · simp only [loop, hb, Except.ok.injEq] at h
        refine ⟨A ++ [a], c :: C, by simp, by simp, ?_, hsmall, by simpa using hs⟩
        rw [← h, MemoryEntryPool.linkBetween_eq hx (hv a (by simp)).2 hc.2 hcx]
        simp
      · simp only [loop, hb] at h
        have hsmall' : ∀ i ∈ A ++ [a] ++ [c], pl.1.size i < pl.1.size x := by
          intro i hi
          rcases List.mem_append.mp hi with hi | hi
          · exact hsmall i hi
          · exact List.mem_singleton.mp hi ▸ not_le.mp hs
        have := chainStep_loop hx hxn C (A ++ [a]) c fuel (p := p) (by simpa using hl)
          (by simpa using hxl) (by simpa using hv) hsmall' h
        simpa using this

/-- Where `insertIntoFreeList` puts an entry that is in no list : between two parts of the
list, in front of the first entry that is not smaller. -/
theorem insertIntoFreeList_eq_ok (h : FreeLists pl B) (hx : ∀ j, x ∉ B j)
    (hv : x < poolSize ∧ pl.1.id x = x) (he : insertIntoFreeList pl x k = .ok pl') :
    ∃ A C, B k = A ++ C ∧ pl'.1 = pl.1.linked x A.getLast? C.head? ∧
      (∀ j, pl'.2 j = if j = k then (A ++ x :: C).head? else pl.2 j) ∧
      (∀ i ∈ A, pl.1.size i < pl.1.size x) ∧ ∀ c ∈ C.head?, pl.1.size x ≤ pl.1.size c := by
  obtain ⟨hxn, he⟩ := assert_bind_eq_ok.mp he
  obtain ⟨hxp, he⟩ := assert_bind_eq_ok.mp he
  rw [h.head k] at he
  cases hk : B k with
  | nil =>
    simp only [hk, List.head?_nil, Option.bind_none, Exec.pure_eq_ok, Except.ok.injEq] at he
    subst he
    refine ⟨[], [], rfl, ?_, fun j => ?_, by simp, by simp⟩
    · exact (MemoryEntryPool.linked_none hxn hxp).symm
    · simp [Function.update_apply, hv.2]
  | cons a C =>
    have hl : Linked pl.1.listNext pl.1.listPrev none (a :: C) none := hk ▸ h.linked k
    have hval : ∀ i ∈ a :: C, i < poolSize ∧ pl.1.id i = i := fun i hi => h.valid (hk ▸ hi)
    have hxk : x ∉ a :: C := hk ▸ hx k
    have hax : a ≠ x := fun hc => hxk (by simp [hc])
    simp only [hk, List.head?_cons, Option.bind_some,
      MemoryEntryPool.getMemoryEntry_of_lt (hval a (by simp)).1] at he
    obtain ⟨s, hsa, he⟩ := Exec.bind_eq_ok.mp he
    obtain ⟨t, htx, he⟩ := Exec.bind_eq_ok.mp he
    obtain rfl := MemoryEntryPool.getSize_eq_ok hsa
    obtain rfl := MemoryEntryPool.getSize_eq_ok htx
    split_ifs at he with hs
    · cases he
      refine ⟨[], a :: C, rfl, ?_, fun j => ?_, by simp, by simpa using hs⟩
      · exact MemoryEntryPool.linkFirst_eq hv.2 (hval a (by simp)).2 hxp hax
      · simp [Function.update_apply, hv.2]
    · obtain ⟨p, hp, he⟩ := Exec.bind_eq_ok.mp he
      cases he
      obtain ⟨A', C', hAC, hA, hp, hplace⟩ := chainStep_loop hv.2 hxn C [] a _ hl hxk hval
        (by simpa using hs) hp
      refine ⟨A', C', hAC, hp, fun j => ?_, hplace⟩
      cases A' with
      | nil => exact absurd rfl hA
      | cons b A' =>
        simp only [List.nil_append, List.cons_append, List.cons.injEq] at hAC
        split_ifs with hj
        · simp [hj, h.head k, hk, hAC.1]
        · rfl

/-- Inserting an entry that is in no list. -/
theorem insertIntoFreeList_spec (h : FreeLists pl B) (hx : ∀ j, x ∉ B j)
    (hv : x < poolSize ∧ pl.1.id x = x) (he : insertIntoFreeList pl x k = .ok pl') :
    SameEntries pl pl' ∧ ∃ B', FreeLists pl' B' ∧ Moved B B' x k := by
  obtain ⟨A, C, hk, hp, hh, -⟩ := insertIntoFreeList_eq_ok h hx hv he
  refine ⟨⟨_, _, hp⟩, Function.update B k (A ++ x :: C), ?_, fun i j => ?_⟩
  · have := h.insert hk hx hv hh
    rwa [← hp] at this
  · by_cases hj : j = k
    · subst hj
      rw [Function.update_self, hk]
      split_ifs with hi
      · simp [hi]
      · simp [hi]
    · rw [Function.update_of_ne hj]
      split_ifs with hi
      · exact iff_of_false (hi ▸ hx j) hj
      · exact Iff.rfl

/-- `chain_entry_to_free_list` moves the entry to the list of its size. An entry with an old
size comes from the list of that size, a new one from none. -/
theorem chainEntryToFreeList_spec {oldSize : Option ℕ} (h : FreeLists pl B)
    (hv : x < poolSize ∧ pl.1.id x = x)
    (hold : ∀ j, x ∈ B j ↔ oldSize.map sizeToPageOrder = some j)
    (he : chainEntryToFreeList pl x oldSize = .ok pl') :
    SameEntries pl pl' ∧ ∃ B', FreeLists pl' B' ∧ Moved B B' x (sizeToPageOrder (pl.1.size x)) := by
  cases oldSize with
  | none =>
    obtain ⟨s, hs, he⟩ := Exec.bind_eq_ok.mp he
    rw [← MemoryEntryPool.getSize_eq_ok hs]
    exact insertIntoFreeList_spec h (fun j hj => by simpa using (hold j).mp hj) hv he
  | some old =>
    simp only [Option.map_some, Option.some.injEq] at hold
    obtain ⟨s, hs, he⟩ := Exec.bind_eq_ok.mp he
    rw [← MemoryEntryPool.getSize_eq_ok hs]
    split_ifs at he with hsize
    · cases he
      refine ⟨.refl _, B, h, fun i j => ?_⟩
      split_ifs with hi
      · rw [hi, hold j, hsize, eq_comm]
      · exact Iff.rfl
    · obtain ⟨A, C, hk⟩ := List.append_of_mem ((hold _).mpr rfl)
      obtain ⟨hfl, heq⟩ := h.remove hk
      obtain ⟨hsame, B', hB', hm⟩ := insertIntoFreeList_spec hfl (h.not_mem_remove hk)
        (by rw [heq]; exact hv) he
      refine ⟨(heq ▸ unlinked_sameEntries pl x _).trans hsame, B', hB', fun i j => ?_⟩
      · rw [hm i j]
        split_ifs with hi
        · rfl
        · by_cases hj : j = sizeToPageOrder old
          · subst hj
            rw [Function.update_self, hk]
            simp [hi]
          · rw [Function.update_of_ne hj]

/-- `unchain_entry_from_free_list` takes the entry out of the list of its size. -/
theorem unchainEntryFromFreeList_spec (h : FreeLists pl B)
    (hx : ∀ j, x ∈ B j ↔ j = sizeToPageOrder (pl.1.size x))
    (he : unchainEntryFromFreeList pl x = .ok pl') :
    SameEntries pl pl' ∧ ∃ B', FreeLists pl' B' ∧ ∀ i j, i ∈ B' j ↔ i ≠ x ∧ i ∈ B j := by
  obtain ⟨s, hs, he⟩ := Exec.bind_eq_ok.mp he
  rw [← MemoryEntryPool.getSize_eq_ok hs] at hx
  cases he
  obtain ⟨A, C, hk⟩ := List.append_of_mem ((hx _).mpr rfl)
  obtain ⟨hfl, heq⟩ := h.remove hk
  have hd : (A ++ x :: C).Nodup := hk ▸ h.nodup _
  have hxAC := (List.nodup_cons.mp (List.nodup_middle.mp hd)).1
  refine ⟨heq ▸ unlinked_sameEntries pl x _, _, hfl, fun i j => ?_⟩
  by_cases hj : j = sizeToPageOrder s
  · subst hj
    rw [Function.update_self, hk]
    simp only [List.mem_append, List.mem_cons] at hxAC ⊢
    constructor
    · intro hi
      exact ⟨fun hc => hxAC (hc ▸ hi), by tauto⟩
    · tauto
  · rw [Function.update_of_ne hj]
    exact ⟨fun hi => ⟨fun hc => hj ((hx j).mp (hc ▸ hi)), hi⟩, fun hi => hi.2⟩

end

/-- `delete` does not touch the free lists. -/
theorem MemoryEntryPool.delete_lists (p : MemoryEntryPool) (x : ℕ) :
    (p.delete x).listNext = p.listNext ∧ (p.delete x).listPrev = p.listPrev ∧
      (p.delete x).id = p.id ∧ (p.delete x).enabled = Function.update p.enabled x false := by
  unfold delete deleteFromNeighbours
  split <;> exact ⟨rfl, rfl, rfl, rfl⟩

theorem FreeLists.delete {p : MemoryEntryPool} {heads : ℕ → Option ℕ} {B : ℕ → List ℕ}
    (h : FreeLists (p, heads) B) (x : ℕ) : FreeLists (p.delete x, heads) B := by
  obtain ⟨h1, h2, h3, -⟩ := p.delete_lists x
  refine ⟨h.head, fun k => ?_, h.nodup, h.unique, fun hi => ?_⟩
  · simp only [h1, h2]
    exact h.linked k
  · simp only [h3]
    exact h.valid hi

/-! ## The insertion returns -/

namespace MemoryEntryPool

/-- The entry has a range, whose size is a 64-bit number. -/
def Sized (p : MemoryEntryPool) (i : ℕ) : Prop :=
  p.startAddress i ≤ p.endAddress i ∧ p.size i < 2 ^ 64

theorem getSize_of_sized {p : MemoryEntryPool} {i : ℕ} (h : p.Sized i) :
    p.getSize i = .ok (p.size i) := by
  have hlt : p.endAddress i - p.startAddress i + 1 < 2 ^ 64 := h.2
  rw [getSize, checkedSub_of_le h.1, Exec.ok_bind, checkedAdd_of_lt hlt, size]

end MemoryEntryPool

section

variable {pl pl' : PoolLists} {B : ℕ → List ℕ} {x k : ℕ}

/-- The loop of `chain_entry_to_free_list` ends : the list ends. -/
theorem chainStep_loop_returns (hx : pl.1.Sized x) :
    ∀ (C : List ℕ) (A : List ℕ) (a fuel : ℕ),
      Linked pl.1.listNext pl.1.listPrev none (A ++ a :: C) none →
      (∀ i ∈ A ++ a :: C, i < poolSize ∧ pl.1.Sized i) → C.length < fuel →
      (loop (pl.1.chainStep x) fuel a).Returns
  | _, _, _, 0, _, _, hfuel => by omega
  | [], A, a, fuel + 1, hl, _, _ => by
    have hn : pl.1.listNext a = none := hl.node.2
    simp [loop, MemoryEntryPool.chainStep, hn]
  | c :: C, A, a, fuel + 1, hl, hv, hfuel => by
    have hn : pl.1.listNext a = some c := hl.node.2
    have hc := hv c (by simp)
    have ih := chainStep_loop_returns hx C (A ++ [a]) c fuel (by simpa using hl)
      (by simpa using hv) (by simp at hfuel; omega)
    simp only [loop, MemoryEntryPool.chainStep, hn, Option.bind_some,
      MemoryEntryPool.getMemoryEntry_of_lt hc.1, MemoryEntryPool.getSize_of_sized hc.2,
      MemoryEntryPool.getSize_of_sized hx, Exec.ok_bind]
    split_ifs
    · exact Exec.returns_ok _
    · exact ih

theorem FreeLists.length_le (h : FreeLists pl B) (k : ℕ) : (B k).length ≤ poolSize := by
  have hsub : B k ⊆ List.range poolSize := fun i hi => List.mem_range.mpr (h.valid hi).1
  simpa using (h.nodup k).length_le_of_subset hsub

/-- Inserting an entry that has no links yet. -/
theorem insertIntoFreeList_returns (h : FreeLists pl B) (hx : pl.1.Sized x)
    (hB : ∀ i ∈ B k, pl.1.Sized i) (hn : pl.1.listNext x = none) (hp : pl.1.listPrev x = none) :
    (insertIntoFreeList pl x k).Returns := by
  unfold insertIntoFreeList
  rw [assert_of hn, assert_of hp, Exec.ok_bind, Exec.ok_bind, h.head k]
  cases hk : B k with
  | nil => simp
  | cons a C =>
    have hmem : ∀ i ∈ a :: C, i < poolSize ∧ pl.1.Sized i := fun i hi =>
      ⟨(h.valid (hk ▸ hi)).1, hB i (hk ▸ hi)⟩
    have ha := hmem a (by simp)
    have hlen := h.length_le k
    rw [hk, List.length_cons] at hlen
    simp only [List.head?_cons, Option.bind_some, MemoryEntryPool.getMemoryEntry_of_lt ha.1,
      MemoryEntryPool.getSize_of_sized ha.2, MemoryEntryPool.getSize_of_sized hx, Exec.ok_bind]
    split_ifs
    · exact Exec.returns_ok _
    · exact (Exec.returns_map _ _).mpr (chainStep_loop_returns hx C [] a _ (hk ▸ h.linked k) hmem
        (by omega))

/-- `chain_entry_to_free_list` returns. An entry with an old size is unchained first, which
clears its links. -/
theorem chainEntryToFreeList_returns {oldSize : Option ℕ} (h : FreeLists pl B)
    (hold : ∀ j, x ∈ B j ↔ oldSize.map sizeToPageOrder = some j) (hx : pl.1.Sized x)
    (hB : ∀ k, ∀ i ∈ B k, pl.1.Sized i)
    (hnew : oldSize = none → pl.1.listNext x = none ∧ pl.1.listPrev x = none) :
    (chainEntryToFreeList pl x oldSize).Returns := by
  cases oldSize with
  | none =>
    simp only [chainEntryToFreeList, MemoryEntryPool.getSize_of_sized hx, Exec.ok_bind]
    exact insertIntoFreeList_returns h hx (hB _) (hnew rfl).1 (hnew rfl).2
  | some old =>
    simp only [Option.map_some, Option.some.injEq] at hold
    simp only [chainEntryToFreeList, MemoryEntryPool.getSize_of_sized hx, Exec.ok_bind]
    split_ifs with hsize
    · exact Exec.returns_ok _
    · obtain ⟨A, C, hk⟩ := List.append_of_mem ((hold _).mpr rfl)
      obtain ⟨hfl, heq⟩ := h.remove hk
      rw [heq] at hfl ⊢
      refine insertIntoFreeList_returns hfl hx (fun i hi => ?_) (if_pos rfl) (if_pos rfl)
      exact hB _ i (mem_of_mem_remove hk hi)

theorem MemoryEntryPool.finishes_getSize (p : MemoryEntryPool) (i : ℕ) : (p.getSize i).Finishes :=
  (finishes_checkedSub _ _).bind fun _ _ => finishes_checkedAdd _ _ _

/-- A loop along a free list ends. -/
theorem FreeLists.loop_finishes {ρ : Type} {f : ℕ → Exec (Iter ℕ ρ)} (h : FreeLists pl B)
    (hbody : ∀ i ∈ B k, (f i).Finishes)
    (hstep : ∀ i j, f i = .ok (.next j) → (pl.1.listNext i).bind MemoryEntryPool.getMemoryEntry = some j)
    {a : ℕ} (ha : pl.2 k = some a) : (loop f (poolSize + 1) a).Finishes := by
  rw [h.head] at ha
  obtain ⟨C, hC⟩ := List.head?_eq_some_iff.mp ha
  have hlen := h.length_le k
  rw [hC, List.length_cons] at hlen
  refine (h.linked k).loop_finishes hbody (fun i j hi hj => ?_) C [] a _ hC (by omega)
  obtain ⟨A, D, hk⟩ := List.append_of_mem hi
  have hl : Linked pl.1.listNext pl.1.listPrev none (A ++ i :: D) none := hk ▸ h.linked k
  have hnext := hl.node.2
  have hj := hstep i j hj
  rwa [MemoryEntryPool.bind_getMemoryEntry fun c hc => ?_] at hj
  rw [hnext, Option.or_none] at hc
  have hcB : c ∈ B k := by simp [hk, List.mem_of_head? hc]
  exact (h.valid hcB).1

/-- Inserting an entry ends, also if it ends with a trap. -/
theorem insertIntoFreeList_finishes (h : FreeLists pl B) : (insertIntoFreeList pl x k).Finishes := by
  refine (finishes_assert _).bind fun _ _ => (finishes_assert _).bind fun _ _ => ?_
  have hhead : (pl.2 k).bind MemoryEntryPool.getMemoryEntry = pl.2 k :=
    MemoryEntryPool.bind_getMemoryEntry fun i hi =>
      (h.valid (List.mem_of_head? ((h.head k).symm.trans hi))).1
  rw [hhead]
  cases hk : pl.2 k with
  | none => exact Exec.finishes_ok _
  | some a =>
    refine (MemoryEntryPool.finishes_getSize _ _).bind fun _ _ =>
      (MemoryEntryPool.finishes_getSize _ _).bind fun _ _ => Exec.finishes_ite (Exec.finishes_ok _) ?_
    refine (h.loop_finishes (fun i _ => ?_) (fun i j hij => ?_) hk).bind fun _ _ => Exec.finishes_ok _
    · unfold MemoryEntryPool.chainStep
      split
      · exact (MemoryEntryPool.finishes_getSize _ _).bind fun _ _ =>
          (MemoryEntryPool.finishes_getSize _ _).bind fun _ _ =>
            Exec.finishes_ite (Exec.finishes_ok _) (Exec.finishes_ok _)
      · exact Exec.finishes_ok _
    · unfold MemoryEntryPool.chainStep at hij
      split at hij
      · rename_i nextEntry hnext
        simp only [Exec.bind_eq_ok] at hij
        obtain ⟨_, -, _, -, hij⟩ := hij
        split_ifs at hij
        · cases hij
        · cases hij
          exact hnext
      · cases hij

theorem chainEntryToFreeList_finishes {oldSize : Option ℕ} (h : FreeLists pl B)
    (hold : ∀ j, x ∈ B j ↔ oldSize.map sizeToPageOrder = some j) :
    (chainEntryToFreeList pl x oldSize).Finishes := by
  cases oldSize with
  | none => exact (MemoryEntryPool.finishes_getSize _ _).bind fun _ _ => insertIntoFreeList_finishes h
  | some old =>
    refine (MemoryEntryPool.finishes_getSize _ _).bind fun _ _ =>
      Exec.finishes_ite (Exec.finishes_ok _) ?_
    obtain ⟨A, C, hk⟩ := List.append_of_mem ((hold _).mpr rfl)
    exact insertIntoFreeList_finishes (h.remove hk).1

/-- `chain_entry_to_free_list` leaves the links of an entry alone that is in no list. -/
theorem chainEntryToFreeList_idle {oldSize : Option ℕ} {y : ℕ} (h : FreeLists pl B)
    (hv : x < poolSize ∧ pl.1.id x = x)
    (hold : ∀ j, x ∈ B j ↔ oldSize.map sizeToPageOrder = some j) (hy : ∀ k, y ∉ B k)
    (hyx : y ≠ x) (he : chainEntryToFreeList pl x oldSize = .ok pl') :
    pl'.1.listNext y = pl.1.listNext y ∧ pl'.1.listPrev y = pl.1.listPrev y := by
  have hinsert : ∀ {pl₁ : PoolLists} {B₁ : ℕ → List ℕ} {k : ℕ}, FreeLists pl₁ B₁ →
      (∀ j, x ∉ B₁ j) → pl₁.1.id x = x → (∀ k, y ∉ B₁ k) →
      insertIntoFreeList pl₁ x k = .ok pl' →
      pl'.1.listNext y = pl₁.1.listNext y ∧ pl'.1.listPrev y = pl₁.1.listPrev y := by
    intro pl₁ B₁ k h₁ hx₁ hid hy₁ he
    obtain ⟨A, C, hk, hp, -⟩ := insertIntoFreeList_eq_ok h₁ hx₁ ⟨hv.1, hid⟩ he
    have hyk : y ∉ A ++ C := hk ▸ hy₁ k
    have hA : A.getLast? ≠ some y := fun hc =>
      hyk (List.mem_append_left _ (List.mem_of_getLast? hc))
    have hC : C.head? ≠ some y := fun hc => hyk (List.mem_append_right _ (List.mem_of_head? hc))
    rw [hp]
    simp [MemoryEntryPool.linked, hyx, hA, hC]
  cases oldSize with
  | none =>
    obtain ⟨s, -, he⟩ := Exec.bind_eq_ok.mp he
    exact hinsert h (fun j hj => by simpa using (hold j).mp hj) hv.2 hy he
  | some old =>
    simp only [Option.map_some, Option.some.injEq] at hold
    obtain ⟨s, -, he⟩ := Exec.bind_eq_ok.mp he
    split_ifs at he with hsize
    · cases he
      exact ⟨rfl, rfl⟩
    · obtain ⟨A, C, hk⟩ := List.append_of_mem ((hold _).mpr rfl)
      obtain ⟨hfl, heq⟩ := h.remove hk
      obtain ⟨hn, hp⟩ := (hk ▸ h.linked (sizeToPageOrder old)).node
      rw [Option.or_none] at hn hp
      have hyk : y ∉ A ++ x :: C := hk ▸ hy _
      have hA : A.getLast? ≠ some y := fun hc =>
        hyk (List.mem_append_left _ (List.mem_of_getLast? hc))
      have hC : C.head? ≠ some y := fun hc =>
        hyk (List.mem_append_right _ (List.mem_cons_of_mem _ (List.mem_of_head? hc)))
      obtain ⟨h1, h2⟩ := hinsert hfl (h.not_mem_remove hk) (by rw [heq]; exact hv.2)
        (fun k hc => hy k (mem_of_mem_remove hk hc)) he
      rw [h1, h2, heq]
      simp [MemoryEntryPool.unlinked, hyx, hn, hp, hA, hC]

end

end MiniVisor
