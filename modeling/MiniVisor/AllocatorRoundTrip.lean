import MiniVisor.GlobalAllocator
import MiniVisor.Vm

/-!
# Allocating and giving back

A block that has just been allocated can always be given back. Even if the pool is full `free` needs
no entry for it, because the block was cut out of one : either that entry is still next to it, or it
was deleted and has left its place. Afterwards exactly the bytes of before are free
(`allocate_free`). This is what the callers rely on that free a block in their error paths and drop
the result of `free` (`CallRun.freePages_allocated`). -/

namespace MiniVisor

open Machine

variable {m m₁ : MemoryAllocator} {a size o : ℕ}

/-- `free` does not lack an entry for a block that was just allocated. -/
theorem Inv.not_full_of_allocated {L L₁ : List ℕ} {B B₁ : ℕ → List ℕ} (h : Inv m L B) (h₁ : Inv m₁ L₁ B₁)
    (hz : size ≠ 0) (hsub : Set.Ico a (a + size) ⊆ m.freeBytes)
    (hF : m₁.freeBytes = m.freeBytes \ Set.Ico a (a + size)) : ¬(m₁.Full ∧ ¬m₁.Touches a size) := by
  rintro ⟨hfull, hapart⟩
  refine h₁.not_full_of_apart h hz ?_ ?_ hapart hfull
  · rw [hF]
    exact Set.disjoint_sdiff_right
  · rw [hF, Set.sdiff_union_of_subset hsub]

theorem CallRun.free_allocated (h : CallRun m) (hsize : 2 ≤ size) (hcount : m.freeSize + size < 2 ^ 64)
    (he : m.allocate size o = .ok (.ok a, m₁)) :
    ∃ m₂, m₁.free a size = .ok (.ok (), m₂) ∧ m₂.freeBytes = m.freeBytes := by
  obtain ⟨hc, ha⟩ := h.valid.allocate he
  obtain ⟨-, hsub⟩ := ha a rfl
  obtain ⟨hv₁, hF⟩ := hc
  obtain ⟨⟨L, B, hinv⟩, -⟩ := h.valid
  obtain ⟨⟨L₁, B₁, hinv₁⟩, -⟩ := id hv₁
  obtain ⟨hfs, -, hne⟩ := freeSize_of_allocate he
  have hdisj : Disjoint (Set.Ico a (a + size)) m₁.freeBytes := by
    rw [hF]
    exact Set.disjoint_sdiff_right
  have htop : a + size < 2 ^ 64 := by
    have := h.lt _ (hsub (Set.mem_Ico.mpr ⟨(by omega : a ≤ a + size - 1), by omega⟩))
    omega
  have hroom := hinv.not_full_of_allocated hinv₁ (by omega) hsub hF
  obtain ⟨⟨r, m₂⟩, hfree⟩ := hinv₁.free_returns (fun hL => hne (hinv₁.unused hL))
    (fun i hi => (h.allocate size o he).lt _ (hinv₁.endAddress_mem hi)) (by omega) hdisj htop
    (.inr ⟨.inl hsize, by omega⟩)
  cases r with
  | error e =>
    obtain hz | hfull := hinv₁.free_error hne hdisj hfree
    · omega
    · exact absurd hfull hroom
  | ok u =>
    refine ⟨m₂, hfree, ?_⟩
    rw [(hv₁.freed hdisj hfree).2, hF, Set.sdiff_union_of_subset hsub]

/-- `free_pages` behind `allocate_pages`, which is what error paths do. -/
theorem CallRun.freePages_allocated {n align : ℕ} (h : CallRun m) (hsize : 2 ≤ MemoryAllocator.pagesSize n)
    (hcount : m.freeSize + MemoryAllocator.pagesSize n < 2 ^ 64)
    (he : m.allocatePages n align = .ok (.ok a, m₁)) :
    ∃ m₂, m₁.freePages a n = .ok m₂ ∧ m₂.freeBytes = m.freeBytes := by
  obtain ⟨m₂, hfree, hF⟩ := h.free_allocated hsize hcount he
  refine ⟨m₂, ?_, hF⟩
  rw [MemoryAllocator.freePages, hfree]
  rfl

/-- A block that was just allocated can be given back, whatever the calls before it were. `free`
does not fail, and exactly the bytes of before are free. -/
theorem allocate_free (h : CallRun m) (hsize : 2 ≤ size) (hcount : m.freeSize + size < 2 ^ 64)
    (he : m.allocate size o = .ok (.ok a, m₁)) :
    ∃ m₂, m₁.free a size = .ok (.ok (), m₂) ∧ m₂.freeBytes = m.freeBytes ∧ m₂.Chained := by
  obtain ⟨m₂, hfree, hF⟩ := h.free_allocated hsize hcount he
  have hdisj : Disjoint (Set.Ico a (a + size)) m₁.freeBytes := by
    rw [(h.valid.allocate he).1.2]
    exact Set.disjoint_sdiff_right
  exact ⟨m₂, hfree, hF, ((h.allocate size o he).free a size hdisj hfree).valid.chained⟩

/-- A page of three. -/
theorem allocate_free_page : ∃ m m₁ m₂ : MemoryAllocator, m.allocate 0x1000 12 = .ok (.ok 0x1000, m₁) ∧
    m₁.free 0x1000 0x1000 = .ok (.ok (), m₂) ∧ m₂.freeBytes = m.freeBytes := by
  obtain ⟨m, m₁, hm, hcount, he⟩ : ∃ m m₁ : MemoryAllocator, CallRun m ∧ m.freeSize = 0x3000 ∧
      m.allocate 0x1000 12 = .ok (.ok 0x1000, m₁) :=
    ⟨_, _, .free (m := .new) 0x1000 0x3000 .new (by simp [Inv.new.freeBytes_eq, covered]) rfl, rfl, rfl⟩
  obtain ⟨m₂, hfree, hF, -⟩ := allocate_free hm (by decide) (by rw [hcount]; decide) he
  exact ⟨m, m₁, m₂, he, hfree, hF⟩

end MiniVisor
