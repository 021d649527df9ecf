import MiniVisor.AllocatorCalls

/-!
# The free lists after a run

`Filed` is what the allocator promises about its free lists between two calls, said of the pool and
the heads alone : the list of an order, followed through `list_next`, has the entries in use with a
size of this order and no others, each once, in the order of their sizes, and `list_prev` leads
back. Every link leads to an entry in use that has the number of the link as its `id`.

It holds after every run of calls (`callRun_filed`). In the middle of a call it does not : an entry
has its new size before it changes its place, and in a merge on both sides the next entry is filed
while the first one is still at the place for its old size. -/

namespace MiniVisor

open Machine

namespace MemoryAllocator

variable (m : MemoryAllocator)

/-- A link holds the number `j` : of the first entry, the head of a free list, or an entry in use. -/
def Stores (j : ℕ) : Prop :=
  m.firstEntry = some j ∨ (∃ k, m.freeList k = some j) ∨
    ∃ i < poolSize, m.pool.enabled i = true ∧ (m.pool.next i = some j ∨ m.pool.previous i = some j ∨
      m.pool.listNext i = some j ∨ m.pool.listPrev i = some j)

/-- The free lists represent the entries in use. -/
structure Filed : Prop where
  head : ∀ k, m.freeList k = (m.freeEntries k).head?
  linked : ∀ k, Linked m.pool.listNext m.pool.listPrev none (m.freeEntries k) none
  once : ∀ k, (m.freeEntries k).Nodup
  filed : ∀ i k, i ∈ m.freeEntries k ↔
    (i < poolSize ∧ m.pool.enabled i = true) ∧ k = sizeToPageOrder (m.pool.size i)
  sorted : ∀ k, (m.freeEntries k).Pairwise fun i j => m.pool.size i ≤ m.pool.size j
  ids : ∀ j, m.Stores j → (j < poolSize ∧ m.pool.enabled j = true) ∧ m.pool.id j = j

end MemoryAllocator

variable {m : MemoryAllocator} {L : List ℕ} {B : ℕ → List ℕ}

/-- The neighbours of a node are nodes. -/
theorem mem_of_node {next prev : ℕ → Option ℕ} {l : List ℕ} (h : Linked next prev none l none)
    {i j : ℕ} (hi : i ∈ l) (hj : next i = some j ∨ prev i = some j) : j ∈ l := by
  obtain ⟨A, C, rfl⟩ := List.append_of_mem hi
  obtain ⟨hprev, hnext⟩ := h.node
  rw [Option.or_none] at hprev hnext
  obtain hj | hj := hj
  · have hmem := List.mem_of_head? (hnext.symm.trans hj)
    exact List.mem_append_right A (List.mem_cons_of_mem i hmem)
  · exact List.mem_append_left _ (List.mem_of_getLast? (hprev.symm.trans hj))

theorem Inv.mem_of_stores (h : Inv m L B) {j : ℕ} (hj : m.Stores j) : j ∈ L := by
  have hB : ∀ {i k}, i ∈ B k → i ∈ L := fun hi => ((h.shape.listed _ _).mp hi).1
  obtain hfirst | ⟨k, hk⟩ | ⟨i, hi, henabled, hlink⟩ := hj
  · exact List.mem_of_head? (h.shape.chain.head.symm.trans hfirst)
  · exact hB (List.mem_of_head? ((h.shape.lists.head k).symm.trans hk))
  · have hiL := (h.shape.chain.mem_iff i).mpr ⟨hi, henabled⟩
    rw [← or_assoc] at hlink
    obtain hlink | hlink := hlink
    · exact mem_of_node h.shape.chain.linked hiL hlink
    · have hiB := (h.shape.listed i _).mpr ⟨hiL, rfl⟩
      exact hB (mem_of_node (h.shape.lists.linked _) hiB hlink)

theorem Inv.filed (h : Inv m L B) : m.Filed where
  head k := by
    rw [h.shape.freeEntries_eq]
    exact h.shape.lists.head k
  linked k := by
    rw [h.shape.freeEntries_eq]
    exact h.shape.lists.linked k
  once k := by
    rw [h.shape.freeEntries_eq]
    exact h.shape.lists.nodup k
  filed i k := by
    rw [h.shape.freeEntries_eq, h.shape.listed, h.shape.chain.mem_iff, orderOf, Option.some.injEq]
    exact and_congr_right fun _ => eq_comm
  sorted k := by
    rw [h.shape.freeEntries_eq]
    exact h.sorted k
  ids j hj := by
    have hmem := h.mem_of_stores hj
    exact ⟨(h.shape.chain.mem_iff j).mp hmem, h.shape.chain.id j hmem⟩

/-- After every run of calls the free lists represent the entries in use. -/
theorem callRun_filed (h : CallRun m) : m.Filed := by
  obtain ⟨⟨L, B, hinv⟩, -⟩ := h.valid
  exact hinv.filed

/-- Two ranges are freed, and most of the first one is taken : what is left of it comes to the list of the
second one, behind it. -/
theorem callRun_filed_two : ∃ m, CallRun m ∧ m.Filed ∧ m.freeEntries 0 = [1, 0] := by
  have h₁ := CallRun.free (m := .new) 0x1000 0x3000 .new
    (by simp [Inv.new.freeBytes_eq, covered]) rfl
  have hc := @MemoryAllocator.Valid.freed .new _ 0x1000 0x3000 _ MemoryAllocator.valid_new
    (by simp [Inv.new.freeBytes_eq, covered]) rfl
  have h₂ := CallRun.free 0x10000 0x800 h₁ (by
    rw [hc.2, Inv.new.freeBytes_eq, List.map_nil, covered_nil, Set.empty_union]
    exact Set.disjoint_left.mpr fun b hb hb' => by
      simp only [Set.mem_Ico] at hb hb'
      omega) rfl
  have h₃ := CallRun.allocate 0x2000 12 h₂ rfl
  exact ⟨_, h₃, callRun_filed h₃, by decide⟩

end MiniVisor
