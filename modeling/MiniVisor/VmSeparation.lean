import MiniVisor.AllocatorRefinement
import MiniVisor.PagingRun
import MiniVisor.Vm
import Mathlib.Data.List.Pairwise

/-!
# Separation of virtual machines

A `Host` boots, creates any number of VMs, and allocates and frees other pages in between. The
pages of the tables come from the same allocator while the tables are built, so `recordedPages`
makes the allocator a `PageSource` that also remembers the blocks it has handed out.

The invariant of a run has three parts : the blocks in use are disjoint from each other and from
the free bytes; every descriptor a guest's translation reads lies in a block of that guest's tables;
and the translation is the linear map of its RAM. Creating a VM writes free bytes only, so it leaves
the tables of the others alone (`Guest.Inv.congr`).
-/

namespace MiniVisor

open Machine

/-! ## The allocator as a source of pages -/

/-- `allocate_pages`, with a record of the blocks it returned. -/
def recordPages (numberOfPages align : ℕ) (g : MemoryAllocator × List (ℕ × ℕ)) :
    Exec (Option ℕ × MemoryAllocator × List (ℕ × ℕ)) := do
  let (r, m) ← g.1.allocatePages numberOfPages align
  match r with
  | .error _ => pure (none, m, g.2)
  | .ok a => pure (some a, m, (a, MemoryAllocator.pagesSize numberOfPages) :: g.2)

theorem recordPages_record {n align p : ℕ} {m m' : MemoryAllocator} {blocks blocks' : List (ℕ × ℕ)}
    (h : recordPages n align (m, blocks) = .ok (some p, m', blocks')) :
    blocks' = (p, MemoryAllocator.pagesSize n) :: blocks := by
  simp only [recordPages, Exec.bind_eq_ok] at h
  obtain ⟨⟨_ | a, m₁⟩, -, h⟩ := h <;> cases h
  rfl

theorem BlocksApart.perm {F : Set ℕ} {l l' : List (ℕ × ℕ)} (h : BlocksApart F l) (hp : l.Perm l') :
    BlocksApart F l' :=
  ⟨(hp.pairwise_iff fun hab => hab.symm).mp h.1, fun b hb => h.2 b (hp.mem_iff.mpr hb)⟩

theorem pagesSize_of_lt {n : ℕ} (hn : n < 2 ^ 52) : MemoryAllocator.pagesSize n = n * 4096 := by
  rw [MemoryAllocator.pagesSize, Nat.shiftLeft_eq, show 2 ^ pageShift = 4096 from rfl,
    Nat.mod_eq_of_lt (by omega)]

/-- All of the free memory is below `2 ^ 47`. -/
def LowFree (m : MemoryAllocator) : Prop :=
  ∀ b ∈ m.freeBytes, b < 2 ^ 47

/-- The allocator, next to the blocks `live` that are in use already. -/
def recordedPages (live : List (ℕ × ℕ)) : PageSource (MemoryAllocator × List (ℕ × ℕ)) where
  allocatePages := recordPages
  Valid g := g.1.Valid ∧ BlocksApart g.1.freeBytes (g.2 ++ live) ∧ LowFree g.1
  free g := g.1.freeBytes
  Later g g' := ∃ new, g'.2 = new ++ g.2 ∧
    ∀ b ∈ g.1.freeBytes, b ∈ g'.1.freeBytes ∨ ∃ c ∈ new, b ∈ blockBytes c
  later_refl g := ⟨[], rfl, fun b hb => .inl hb⟩
  later_trans := by
    rintro g g' g'' ⟨new, hnew, h⟩ ⟨new', hnew', h'⟩
    refine ⟨new' ++ new, by rw [hnew', hnew, List.append_assoc], fun b hb => ?_⟩
    rcases h b hb with hb | ⟨c, hc, hb⟩
    · rcases h' b hb with hb | ⟨c, hc, hb⟩
      · exact .inl hb
      · exact .inr ⟨c, List.mem_append_left _ hc, hb⟩
    · exact .inr ⟨c, List.mem_append_right _ hc, hb⟩
  allocated := by
    rintro n align p ⟨m, blocks⟩ ⟨m', blocks'⟩ hn ⟨hv, hapart, hlow⟩ h
    simp only [recordPages, Exec.bind_eq_ok] at h
    obtain ⟨⟨r, m₁⟩, hr, h⟩ := h
    cases r with
    | error e => cases h
    | ok a =>
      cases h
      obtain ⟨hc, ha⟩ := hv.allocate hr
      obtain ⟨hdvd, hsub⟩ := ha p rfl
      have hfree : m₁.freeBytes = _ := hc.2
      have hblocks := hapart.use (fun a => (a, MemoryAllocator.pagesSize n)) hc
        fun a hr => (ha a hr).2
      rw [← pagesSize_of_lt hn]
      refine ⟨⟨hc.1, hblocks, fun b hb => hlow b (hfree ▸ hb).1⟩, ⟨[(p, _)], rfl, fun b hb => ?_⟩,
        hdvd, hsub, hfree.subset⟩
      by_cases hb' : b ∈ blockBytes (p, MemoryAllocator.pagesSize n)
      · exact .inr ⟨_, List.mem_singleton_self _, hb'⟩
      · exact .inl (hfree ▸ ⟨hb, hb'⟩)
  bound := fun hv b hb => (hv.2.2 b hb).trans (by decide)

/-! ## Runs of the host -/

/-- A virtual machine, its stage 2 registers, and the blocks of its translation table. -/
structure Guest where
  vm : VM
  regs : Stage2Registers
  tables : List (ℕ × ℕ)

/-- The blocks of a guest. -/
def Guest.blocks (g : Guest) : List (ℕ × ℕ) :=
  g.vm.ram :: g.tables

/-- The host : its allocator and its memory, the ranges reserved at boot, the guests, and the other
blocks of pages in use. -/
structure Host where
  allocator : MemoryAllocator
  memory : ℕ → BitVec 64
  reserved : List (ℕ × ℕ)
  guests : List Guest
  others : List (ℕ × ℕ)

/-- All blocks in use. -/
def Host.blocks (host : Host) : List (ℕ × ℕ) :=
  host.others ++ (host.guests.flatMap Guest.blocks ++ host.reserved)

/-- A run in which no assertion fails and every `create_vm` starts with an allocator satisfying
`C`. Pages that are not tables may be written at any time. The first block `create_vm` takes is the
RAM, which is the last of its record. -/
inductive HostRun (C : MemoryAllocator → Prop) : Host → Prop
  | setup {m : MemoryAllocator} {reserved : List (ℕ × ℕ)} (boot : BootInfo)
      (memory : ℕ → BitVec 64) (he : setupMemory boot = .ok (m, reserved)) :
      HostRun C ⟨m, memory, reserved, [], []⟩
  | createVm {host : Host} {vm : VM} {regs : Stage2Registers} {memory : ℕ → BitVec 64}
      {m : MemoryAllocator} {blocks : List (ℕ × ℕ)} (v : BitVec 64) (h : HostRun C host)
      (hC : C host.allocator) (he : MiniVisor.createVm recordPages v host.memory
        (host.allocator, []) = .ok (vm, regs, memory, m, blocks)) :
      HostRun C ⟨m, memory, host.reserved, ⟨vm, regs, blocks.dropLast⟩ :: host.guests, host.others⟩
  | allocatePages {host : Host} {r : MemoryResult ℕ} {m : MemoryAllocator}
      (numberOfPages align : ℕ) (h : HostRun C host)
      (he : host.allocator.allocatePages numberOfPages align = .ok (r, m)) :
      HostRun C ⟨m, host.memory, host.reserved, host.guests, blocksAfterUse host.others
        (fun a => (a, MemoryAllocator.pagesSize numberOfPages)) r⟩
  | freePages {host : Host} {m : MemoryAllocator} (address numberOfPages : ℕ) (h : HostRun C host)
      (hlive : (address, MemoryAllocator.pagesSize numberOfPages) ∈ host.others)
      (he : host.allocator.freePages address numberOfPages = .ok m) :
      HostRun C ⟨m, host.memory, host.reserved, host.guests,
        host.others.erase (address, MemoryAllocator.pagesSize numberOfPages)⟩
  | write {host : Host} (a : ℕ) (v : BitVec 64) (h : HostRun C host)
      (ha : ∃ b ∈ host.others ++ host.guests.map fun g => g.vm.ram, a ∈ blockBytes b) :
      HostRun C { host with memory := Function.update host.memory a v }

/-! ## The invariant -/

/-- The translation of a guest is the linear map of its RAM, and it reads its tables only. -/
structure Guest.Inv (g : Guest) (memory : ℕ → BitVec 64) : Prop where
  initialised : Initialised g.regs
  virtual : g.vm.ramVirtualBaseAddress = ramVirtualBase
  size : g.vm.ramSize = ramSize
  bound : g.vm.ramPhysicalBaseAddress + ramSize ≤ 2 ^ 48
  tables : ∀ w ∈ translationWords g.regs memory, ∃ b ∈ g.tables, w ∈ blockBytes b
  translates : ∀ x, translate g.regs memory x =
    if ramVirtualBase ≤ x ∧ x < ramVirtualBase + ramSize then
      some ⟨g.vm.ramPhysicalBaseAddress + (x - ramVirtualBase), true, true⟩
    else none

structure Host.Inv (host : Host) : Prop where
  valid : host.allocator.Valid
  apart : BlocksApart host.allocator.freeBytes host.blocks
  others : ∀ b ∈ host.others, b.1 + b.2 ≤ 2 ^ 64
  guests : ∀ g ∈ host.guests, g.Inv host.memory

/-- Writes outside of its tables do not matter to a guest. -/
theorem Guest.Inv.congr {g : Guest} {memory memory' : ℕ → BitVec 64} (h : g.Inv memory)
    (hm : ∀ b ∈ g.tables, ∀ a ∈ blockBytes b, memory' a = memory a) : g.Inv memory' := by
  have hwords : ∀ w ∈ translationWords g.regs memory, memory' w = memory w := by
    intro w hw
    obtain ⟨b, hb, hwb⟩ := h.tables w hw
    exact hm b hb w hwb
  refine ⟨h.initialised, h.virtual, h.size, h.bound, ?_, fun x => ?_⟩
  · have : translationWords g.regs memory' = translationWords g.regs memory :=
      tableWords_congr hwords
    rw [this]
    exact h.tables
  · rw [translate_congr h.initialised hwords, h.translates]

/-! ## Boot -/

theorem expect_eq_ok {α β : Type} {r : MemoryResult α × β} {a : α} {b : β}
    (h : expect r = .ok (a, b)) : r = (.ok a, b) := by
  obtain ⟨_ | a, b⟩ := r
  · cases h
  · cases h
    rfl

theorem reserveRange_spec {m m' : MemoryAllocator} {range : ℕ × ℕ} {live : List (ℕ × ℕ)}
    (hv : m.Valid) (hapart : BlocksApart m.freeBytes live) (h : reserveRange m range = .ok m') :
    m'.Valid ∧ m'.freeBytes ⊆ m.freeBytes ∧ BlocksApart m'.freeBytes (range :: live) := by
  simp only [reserveRange, Exec.bind_eq_ok] at h
  obtain ⟨_, -, r, hr, ⟨u, m₁⟩, he, h⟩ := h
  cases h
  obtain rfl := expect_eq_ok he
  have hin := hv.inside_of_reserveMemory hr
  have hc := hv.reserveMemory hin hr
  have hfree : m₁.freeBytes = m.freeBytes \ blockBytes range := hc.2
  refine ⟨hc.1, hfree ▸ Set.sdiff_subset, hapart.use (fun _ => range) hc fun _ _ b hb => ?_⟩
  obtain ⟨i, hi, hsub⟩ := hin
  exact ⟨_, List.mem_map_of_mem hi, hsub hb⟩

theorem reserveRanges_spec : ∀ (ranges : List (ℕ × ℕ)) {m m' : MemoryAllocator}
    {live : List (ℕ × ℕ)}, m.Valid → BlocksApart m.freeBytes live →
      reserveRanges ranges m = .ok m' →
        m'.Valid ∧ m'.freeBytes ⊆ m.freeBytes ∧ BlocksApart m'.freeBytes (ranges ++ live)
  | [], m, m', live, hv, hapart, h => by
    cases h
    exact ⟨hv, subset_rfl, hapart⟩
  | range :: ranges, m, m', live, hv, hapart, h => by
    simp only [reserveRanges, Exec.bind_eq_ok] at h
    obtain ⟨m₁, h₁, h⟩ := h
    obtain ⟨hv₁, hsub₁, hapart₁⟩ := reserveRange_spec hv hapart h₁
    obtain ⟨hv', hsub, hapart'⟩ := reserveRanges_spec ranges hv₁ hapart₁ h
    exact ⟨hv', hsub.trans hsub₁, hapart'.perm List.perm_middle⟩

/-- After boot the free memory is inside the RAM, and the reserved ranges are apart. -/
theorem setupMemory_spec {boot : BootInfo} {m : MemoryAllocator} {reserved : List (ℕ × ℕ)}
    (h : setupMemory boot = .ok (m, reserved)) :
    m.Valid ∧ m.freeBytes ⊆ blockBytes boot.ram ∧ BlocksApart m.freeBytes reserved := by
  simp only [setupMemory, Exec.bind_eq_ok] at h
  obtain ⟨_, hsum, r, hr, ⟨u, m₁⟩, he, m₂, hm₂, stack, -, m₃, hm₃, h⟩ := h
  cases h
  obtain ⟨htop, -⟩ := checkedAdd_eq_ok.mp hsum
  obtain rfl := expect_eq_ok he
  have hnew : MemoryAllocator.new.freeBytes = ∅ := by
    simp [Inv.new.freeBytes_eq, covered]
  have hc := MemoryAllocator.valid_new.free htop.le (by simp [hnew]) hr
  have hfree : m₁.freeBytes = blockBytes boot.ram := by
    have : m₁.freeBytes = MemoryAllocator.new.freeBytes ∪ blockBytes boot.ram := hc.2
    rw [this, hnew, Set.empty_union]
  have hnone : BlocksApart m₁.freeBytes [] := ⟨List.Pairwise.nil, by simp⟩
  obtain ⟨hv₂, hsub₂, hapart₂⟩ := reserveRanges_spec _ hc.1 hnone hm₂
  obtain ⟨hv₃, hsub₃, hapart₃⟩ := reserveRange_spec hv₂ hapart₂ hm₃
  refine ⟨hv₃, hfree ▸ hsub₃.trans hsub₂, hapart₃.perm ?_⟩
  rw [List.append_nil]
  exact (List.perm_append_singleton _ _).symm

/-! ## Creating a VM -/

/-- What `create_vm` does : the new guest has its invariant, its blocks are apart from those in
use, and it has written free bytes only. -/
theorem createVm_spec {live blocks : List (ℕ × ℕ)} {m m' : MemoryAllocator}
    {memory memory' : ℕ → BitVec 64} {v : BitVec 64} {vm : VM} {regs : Stage2Registers}
    (hv : m.Valid) (hapart : BlocksApart m.freeBytes live) (hlow : LowFree m)
    (h : createVm recordPages v memory (m, []) = .ok (vm, regs, memory', m', blocks)) :
    ∃ tables, blocks = tables ++ [vm.ram] ∧ Guest.Inv ⟨vm, regs, tables⟩ memory' ∧ m'.Valid ∧
      BlocksApart m'.freeBytes (blocks ++ live) ∧
        ∀ b, b ∉ m.freeBytes → memory' b = memory b := by
  let P := recordedPages live
  have hP : P.Valid (m, []) := ⟨hv, hapart, hlow⟩
  simp only [createVm, Exec.bind_eq_ok] at h
  obtain ⟨⟨_ | ram, pages₁⟩, h₁, h⟩ := h
  · cases h
  simp only [Exec.bind_eq_ok] at h
  obtain ⟨⟨regs₁, memory₁, pages₂⟩, h₂, ⟨r, memory₂, pages₃⟩, h₃, h⟩ := h
  cases r with
  | error e => cases h
  | ok u =>
    cases h
    have hpages : ramSize >>> pageShift * 4096 = ramSize := by decide
    have hrecord := recordPages_record h₁
    obtain ⟨hP₁, -, hdvd, hram, hfree₁⟩ := P.allocated (by decide) hP h₁
    rw [hpages] at hram hfree₁
    obtain ⟨ht, hc₂, hnone, p, hp, hbase⟩ := initStage2TranslationTable_spec (P := P) hP₁ h₂
    have hfree₁' : P.free pages₁ ⊆ m.freeBytes := hfree₁.trans Set.sdiff_subset
    have hroot : regs₁.vttbrEl2.toNat < 2 ^ 47 := by
      have hp47 : p < 2 ^ 47 := hlow p (hfree₁' hp)
      rw [hbase, BitVec.toNat_ofNat]
      omega
    have hbound : ram + ramSize ≤ 2 ^ 48 := by
      have hsize : ramSize = 0x10000000 := rfl
      have := hlow (ram + (ramSize - 1)) (hram ⟨by omega, by omega⟩)
      omega
    have hspace : ramVirtualBase + ramSize ≤ 2 ^ (64 - vtcrT0sz regs₁.vtcrEl2) :=
      le_trans (by decide) (Nat.pow_le_pow_right (by decide)
        (show 32 ≤ 64 - vtcrT0sz regs₁.vtcrEl2 by have := ht.initialised.root.2.1; omega))
    obtain ⟨ht', hc₃, htrans⟩ := mapAddressStage2_spec ht hroot hdvd (by decide) hbound
      hspace (fun x _ _ => hnone x) h₃
    obtain ⟨tables, htables, hcovered⟩ := P.later_trans hc₂.later hc₃.later
    rw [hrecord] at htables
    refine ⟨tables, htables, ⟨ht'.initialised, rfl, rfl, hbound, fun w hw => ?_, fun x => ?_⟩,
      ht'.valid.1, ht'.valid.2.1, fun b hb => ?_⟩
    · -- A descriptor of the table was free before and is not free now.
      have htaken : w ∈ P.free pages₁ ∧ w ∉ P.free (m', blocks) := by
        rcases hc₃.grows hw with hw | hw
        · rcases hc₂.grows hw with hw | hw
          · exact absurd hw (Set.notMem_empty w)
          · exact ⟨hw.1, fun hc => hw.2 (hc₃.free hc)⟩
        · exact ⟨hc₂.free hw.1, hw.2⟩
      exact (hcovered w htaken.1).resolve_left htaken.2
    · rw [htrans, hnone]
    · have hb₁ : b ∉ P.free pages₁ := fun hc => hb (hfree₁' hc)
      have hb₂ : b ∉ P.free pages₂ := fun hc => hb₁ (hc₂.free hc)
      have hwords : b ∉ translationWords regs₁ memory₁ := fun hc => by
        rcases hc₂.grows hc with hc | hc
        · exact Set.notMem_empty b hc
        · exact hb₁ hc.1
      exact (hc₃.frame b hwords hb₂).trans (hc₂.frame b (Set.notMem_empty b) hb₁)

/-! ## Separation -/

/-- The blocks of a guest are among those in use. -/
theorem Host.mem_blocks {host : Host} {g : Guest} {b : ℕ × ℕ} (hg : g ∈ host.guests)
    (hb : b ∈ g.blocks) : b ∈ host.blocks :=
  List.mem_append_right _ (List.mem_append_left _ (List.mem_flatMap.mpr ⟨g, hg, hb⟩))

/-- A page that is not a table is not in a table. -/
theorem Host.Inv.not_mem_tables {host : Host} (h : host.Inv) {a : ℕ} {b c : ℕ × ℕ} {g : Guest}
    (hb : b ∈ host.others ++ host.guests.map fun g => g.vm.ram) (ha : a ∈ blockBytes b)
    (hg : g ∈ host.guests) (hc : c ∈ g.tables) : a ∉ blockBytes c := by
  obtain ⟨-, hrest, hothers⟩ := List.pairwise_append.mp h.apart.1
  obtain ⟨hguest, hguests⟩ := List.pairwise_flatMap.mp (List.pairwise_append.mp hrest).1
  suffices hd : Disjoint (blockBytes b) (blockBytes c) from Set.disjoint_left.mp hd ha
  rcases List.mem_append.mp hb with hb | hb
  · refine hothers b hb c (List.mem_append_left _ ?_)
    exact List.mem_flatMap.mpr ⟨g, hg, List.mem_cons_of_mem _ hc⟩
  · obtain ⟨g', hg', rfl⟩ := List.mem_map.mp hb
    by_cases hgg : g' = g
    · subst hgg
      exact (List.pairwise_cons.mp (hguest g' hg')).1 c hc
    · have : Std.Symm fun g g' : Guest =>
          ∀ b ∈ g.blocks, ∀ c ∈ g'.blocks, Disjoint (blockBytes b) (blockBytes c) :=
        ⟨fun _ _ h b hb c hc => (h c hc b hb).symm⟩
      exact hguests.forall hg' hg hgg _ List.mem_cons_self c (List.mem_cons_of_mem _ hc)

/-- A block that is given back was apart from the others. -/
theorem BlocksApart.freeBlock {m m' : MemoryAllocator} {r : MemoryResult Unit} {b : ℕ × ℕ}
    {live : List (ℕ × ℕ)} (h : BlocksApart m.freeBytes (b :: live))
    (hc : m.Changed r m' fun _ => m.freeBytes ∪ blockBytes b) : BlocksApart m'.freeBytes live := by
  obtain ⟨hb, hlive⟩ := List.pairwise_cons.mp h.1
  refine ⟨hlive, fun c hmem => ?_⟩
  have hfree := h.2 c (List.mem_cons_of_mem b hmem)
  cases r with
  | error e =>
    have hm : m' = m := hc
    exact hm ▸ hfree
  | ok u =>
    have hF : m'.freeBytes = m.freeBytes ∪ blockBytes b := hc.2
    rw [hF, Set.disjoint_union_right]
    exact ⟨hfree, (hb c hmem).symm⟩

/-- A block that was allocated ends in the address space. -/
theorem MemoryAllocator.Valid.allocate_le {m m' : MemoryAllocator} {a size align : ℕ}
    (hv : m.Valid) (h : m.allocate size align = .ok (.ok a, m')) : a + size ≤ 2 ^ 64 := by
  obtain ⟨-, hsub⟩ := (hv.allocate h).2 a rfl
  have hz : size ≠ 0 := by
    rintro rfl
    cases h
  have := hv.2 (a + size - 1) (hsub ⟨by omega, by omega⟩)
  omega

theorem hostRun_invariant {host : Host} (h : HostRun LowFree host) : host.Inv := by
  induction h with
  | setup boot memory he =>
    obtain ⟨hv, -, hapart⟩ := setupMemory_spec he
    exact ⟨hv, hapart, by simp, by simp⟩
  | @createVm host vm regs memory m blocks v _ hC he ih =>
    obtain ⟨tables, rfl, hg, hv, hapart, hframe⟩ := createVm_spec ih.valid ih.apart hC he
    rw [List.dropLast_concat]
    refine ⟨hv, hapart.perm ?_, ih.others, fun g hmem => ?_⟩
    · refine ((List.perm_append_singleton _ _).append_right _).trans ?_
      refine (List.perm_append_comm_assoc _ _ _).trans ?_
      simp [Host.blocks, Guest.blocks]
    · rcases List.mem_cons.mp hmem with rfl | hmem
      · exact hg
      · refine (ih.guests g hmem).congr fun b hb a ha => hframe a fun hc => ?_
        exact Set.disjoint_left.mp
          (ih.apart.2 b (Host.mem_blocks hmem (List.mem_cons_of_mem _ hb))) ha hc
  | @allocatePages host r m n align _ he ih =>
    obtain ⟨hc, ha⟩ := ih.valid.allocate he
    have hapart := ih.apart.use (fun a => (a, MemoryAllocator.pagesSize n)) hc
      fun a hr => (ha a hr).2
    refine ⟨hc.valid ih.valid, ?_, ?_, ih.guests⟩
    · cases r <;> exact hapart
    · cases r with
      | error e => exact ih.others
      | ok a =>
        intro b hb
        rcases List.mem_cons.mp hb with rfl | hb
        · exact ih.valid.allocate_le he
        · exact ih.others b hb
  | @freePages host m address n _ hlive he ih =>
    simp only [MemoryAllocator.freePages, Exec.bind_eq_ok] at he
    obtain ⟨⟨r, m₁⟩, hr, he⟩ := he
    cases he
    have hmem : (address, MemoryAllocator.pagesSize n) ∈ host.blocks := List.mem_append_left _ hlive
    have hc := ih.valid.free (ih.others _ hlive) (ih.apart.2 _ hmem) hr
    refine ⟨hc.valid ih.valid, (ih.apart.perm ?_).freeBlock hc,
      fun b hb => ih.others b (List.mem_of_mem_erase hb), ih.guests⟩
    exact (List.perm_cons_erase hlive).append_right _
  | @write host a v _ ha ih =>
    obtain ⟨b, hb, hab⟩ := ha
    refine ⟨ih.valid, ih.apart, ih.others, fun g hg => (ih.guests g hg).congr fun c hc x hx => ?_⟩
    refine Function.update_of_ne (fun hxa => ?_) _ _
    exact ih.not_mem_tables hb hab hg hc (hxa ▸ hx)

/-- What a guest can reach : every address faults or lands in the RAM of the guest, where
`get_physical_address` says. -/
def Guest.Contained (g : Guest) (memory : ℕ → BitVec 64) : Prop :=
  ∀ x, g.vm.getPhysicalAddress x = .ok ((translate g.regs memory x).map Translation.address) ∧
    ∀ t, translate g.regs memory x = some t → t.address ∈ blockBytes g.vm.ram

theorem Guest.Inv.contained {g : Guest} {memory : ℕ → BitVec 64} (h : g.Inv memory) :
    g.Contained memory := by
  have hbound := h.bound
  have hbase : ramVirtualBase = 0x40000000 := rfl
  have hsize : ramSize = 0x10000000 := rfl
  have hvm : g.vm.WellFormed := by
    constructor
    · rw [h.virtual, h.size]
      decide
    · rw [h.size]
      omega
  intro x
  rw [hvm.getPhysicalAddress, h.translates, h.virtual, h.size]
  split_ifs with hx
  · refine ⟨?_, ?_⟩
    · rw [Option.map_some, Nat.add_comm]
    · intro t ht
      obtain rfl := Option.some.inj ht
      simp only [VM.ram, blockBytes, h.size, Set.mem_Ico]
      omega
  · exact ⟨rfl, by simp⟩

/-- In every run in which each `create_vm` starts with all free memory below `2 ^ 47`, each guest
reaches its own RAM only, and the blocks in use (the RAM of the guests, the pages of their tables,
the ranges reserved at boot and the other pages) are disjoint. -/
theorem hostRun_separated {host : Host} (h : HostRun LowFree host) :
    (∀ g ∈ host.guests, g.Contained host.memory) ∧
    (∀ g ∈ host.guests, ∀ w ∈ translationWords g.regs host.memory,
      ∃ b ∈ g.tables, w ∈ blockBytes b) ∧
    host.blocks.Pairwise fun b c => Disjoint (blockBytes b) (blockBytes c) :=
  have hinv := hostRun_invariant h
  ⟨fun g hg => (hinv.guests g hg).contained, fun g hg => (hinv.guests g hg).tables, hinv.apart.1⟩

/-! ## Runs with VMs -/

section Blocks

variable {σ : Type} {allocatePages : ℕ → ℕ → σ → Exec (Option ℕ × σ)} {permission : BitVec 64}

theorem mapEntry_block {k a : ℕ} (hk : k + 1 ≤ 2) {s : MapState σ}
    (hsize : blockSize (k + 1) ≤ s.remainingSize) (hpa : blockSize (k + 1) ∣ s.physicalAddress)
    (hipa : blockSize (k + 1) ∣ s.intermediatePhysicalAddress)
    (hpb : s.physicalAddress + s.remainingSize < 2 ^ 64)
    (hib : s.intermediatePhysicalAddress + s.remainingSize < 2 ^ 64) :
    mapEntry allocatePages permission (k + 1) a s = .ok (.ok (),
      ⟨s.physicalAddress + blockSize (k + 1), s.intermediatePhysicalAddress + blockSize (k + 1),
        s.remainingSize - blockSize (k + 1), Function.update s.memory a
          (Descriptor.block s.physicalAddress permission), s.pages⟩) := by
  have hmask : ∀ y, blockSize (k + 1) ∣ y → y &&& (blockSize (k + 1) - 1) = 0 := by
    intro y hy
    rw [blockSize, Nat.and_two_pow_sub_one_eq_mod]
    exact Nat.mod_eq_zero_of_dvd hy
  rw [mapEntry]
  simp only [MapState.writeLeaf]
  rw [if_pos ⟨hk, hsize, hmask _ hpa, hmask _ hipa⟩, checkedAdd_of_lt (by omega), checkedAdd_of_lt
    (by omega), checkedSub_of_le hsize]
  rfl

variable (allocatePages permission) in
/-- A range of aligned blocks is mapped without a new table. -/
theorem mapEntries_blocks {k : ℕ} (hk : k + 1 ≤ 2) : ∀ (j n a : ℕ) (s : MapState σ), j < n →
    blockSize (k + 1) ∣ s.physicalAddress → blockSize (k + 1) ∣ s.intermediatePhysicalAddress →
    s.remainingSize = (j + 1) * blockSize (k + 1) → s.physicalAddress + s.remainingSize < 2 ^ 64 →
    s.intermediatePhysicalAddress + s.remainingSize < 2 ^ 64 →
    ∃ s', mapEntries (mapEntry allocatePages permission (k + 1)) n a s = .ok (.ok (), s') ∧
      s'.remainingSize = 0 ∧ s'.pages = s.pages ∧
        ∀ b, b ∉ Set.Ico a (a + 8 * n) → s'.memory b = s.memory b
  | _, 0, _, _, hn, _, _, _, _, _ => by omega
  | j, n + 1, a, s, hn, hpa, hipa, hrem, hpb, hib => by
    have hsize : blockSize (k + 1) ≤ s.remainingSize := by
      rw [hrem]
      exact Nat.le_mul_of_pos_left _ (by omega)
    have hframe : ∀ b d, b ∉ Set.Ico a (a + 8 * (n + 1)) →
        Function.update s.memory a d b = s.memory b := fun b d hb =>
      Function.update_of_ne (fun hc => hb ⟨hc.ge, by omega⟩) _ _
    rw [mapEntries, mapEntry_block hk hsize hpa hipa hpb hib, Exec.ok_bind]
    cases j with
    | zero =>
      have h0 : s.remainingSize - blockSize (k + 1) = 0 := by omega
      exact ⟨_, if_pos h0, h0, rfl, fun b hb => hframe b _ hb⟩
    | succ j =>
      have hrem' : s.remainingSize - blockSize (k + 1) = (j + 1) * blockSize (k + 1) := by
        rw [hrem, ← Nat.sub_one_mul]
        rfl
      have hpos := blockSize_pos (k + 1)
      have hne : s.remainingSize - blockSize (k + 1) ≠ 0 := by
        rw [hrem']
        exact Nat.mul_ne_zero (by omega) (by omega)
      obtain ⟨s', h, h0, hpages, hmem⟩ := mapEntries_blocks hk j n (a + 8)
        ⟨s.physicalAddress + blockSize (k + 1), s.intermediatePhysicalAddress + blockSize (k + 1),
          s.remainingSize - blockSize (k + 1), Function.update s.memory a
            (Descriptor.block s.physicalAddress permission), s.pages⟩ (by omega)
        (Nat.dvd_add hpa dvd_rfl) (Nat.dvd_add hipa dvd_rfl) hrem' (by simp only; omega)
        (by simp only; omega)
      refine ⟨s', (if_neg hne).trans h, h0, hpages, fun b hb => ?_⟩
      rw [hmem b fun hc => hb ⟨by have := hc.1; omega, by have := hc.2; omega⟩]
      exact hframe b _ hb

/-- An empty descriptor above what is left of the range gets a table. -/
theorem mapEntry_newTable {k a next : ℕ} {s : MapState σ} {pages : σ}
    (hlarge : ¬ blockSize (k + 1) ≤ s.remainingSize) (hempty : s.memory a = 0#64)
    (h : allocatePages 1 12 s.pages = .ok (some next, pages)) :
    mapEntry allocatePages permission (k + 1) a s = mapTable (mapEntry allocatePages permission k)
      k next 512
      { s with
        memory := Function.update (zeroTable s.memory next 512) a (Descriptor.table next)
        pages } := by
  have hnext : nextLevelTable allocatePages a s = .ok (.ok next, { s with
      memory := Function.update (zeroTable s.memory next 512) a (Descriptor.table next)
      pages }) := by
    rw [nextLevelTable, hempty, if_neg (show ¬ Descriptor.isTableDescriptor 0#64 by decide), h,
      Exec.ok_bind]
    rfl
  rw [mapEntry, if_neg fun hc => hlarge hc.2.1, hnext, Exec.ok_bind]

/-- The range ends in the first descriptor. -/
theorem mapTable_first {entry : ℕ → MapState σ → Exec (Except Unit Unit × MapState σ)} {k a n index : ℕ}
    {s s' : MapState σ} (hindex : (s.intermediatePhysicalAddress >>> (12 + 9 * k)) &&& (n - 1) = index)
    (hn : index < n) (hentry : entry (a + 8 * index) s = .ok (.ok (), s')) (h0 : s'.remainingSize = 0) :
    mapTable entry k a n s = .ok (.ok (), s') := by
  simp only [mapTable, hindex]
  rw [show n - index = n - index - 1 + 1 by omega, mapEntries, hentry, Exec.ok_bind]
  exact if_pos h0

/-- `create_vm` on a host with 48 bits of physical addresses, when the four allocations succeed, the
RAM is aligned to blocks, and the descriptor that the code takes for the first one of the root table
is empty. -/
theorem createVm_returns {memory : ℕ → BitVec 64} {g g₁ g₂ g₃ g₄ : σ} {ram root next last base : ℕ}
    (h₁ : allocatePages (ramSize >>> pageShift) pageShift g = .ok (some ram, g₁))
    (h₂ : allocatePages 1 12 g₁ = .ok (some root, g₂))
    (h₃ : allocatePages 1 12 g₂ = .ok (some next, g₃))
    (h₄ : allocatePages 1 12 g₃ = .ok (some last, g₄))
    (hbase : (BitVec.ofNat 64 root &&& vttbrBaddr).toNat = base)
    (hempty : zeroTable memory root 512 base = 0#64) (hapart : base ≠ next + 8)
    (hram : blockSize 1 ∣ ram) (hbound : ram + ramSize < 2 ^ 64) :
    ∃ memory', createVm allocatePages 0b101#64 memory g =
        .ok (⟨ramVirtualBase, ram, ramSize⟩, ⟨vtcrValue 0b101#64, BitVec.ofNat 64 root⟩, memory', g₄) ∧
      ∀ b, b ∉ Set.Ico next (next + 4096) → b ∉ Set.Ico last (last + 4096) → b ≠ base →
        memory' b = zeroTable memory root 512 b := by
  have hinit : initStage2TranslationTable allocatePages 0b101#64 memory g₁ =
      .ok (⟨vtcrValue 0b101#64, BitVec.ofNat 64 root⟩, zeroTable memory root 512, g₂) := by
    have hps : 0b101#64 &&& idAa64mmfr0El1Parange = 0b101#64 := by decide
    have hl : initialLookup 0b101#64 = (16, 0) := by decide
    have hn : numberOfConcatenatedPageTables 16 (3 - 0) = 1 := by decide
    simp only [initStage2TranslationTable, hps, hl, hn, Nat.add_sub_cancel, h₂, Exec.ok_bind,
      Exec.pure_eq_ok,
      Nat.one_mul]
  -- the memory with the entry of the root table, and with that of the table below it
  set memory₁ := Function.update (zeroTable (zeroTable memory root 512) next 512) base
    (Descriptor.table next)
    with hmemory₁
  set memory₂ := Function.update (zeroTable memory₁ last 512) (next + 8 * 1)
    (Descriptor.table last) with hmemory₂
  obtain ⟨s', hs', h0, hpages, hmem⟩ := mapEntries_blocks allocatePages (permissionOf true true)
    (k := 0) (by decide) 127 512 last ⟨ram, ramVirtualBase, ramSize, memory₂, g₄⟩ (by decide) hram
    (show blockSize 1 ∣ ramVirtualBase by decide) (show ramSize = 128 * blockSize 1 by decide) hbound
    (show ramVirtualBase + ramSize < 2 ^ 64 by decide)
  have hlast : mapTable (mapEntry allocatePages (permissionOf true true) 1) 1 last 512
      ⟨ram, ramVirtualBase, ramSize, memory₂, g₄⟩ = .ok (.ok (), s') := by
    have hindex : ramVirtualBase >>> (12 + 9 * 1) &&& (512 - 1) = 0 := by decide
    simp only [mapTable, hindex]
    exact hs'
  have hentry₂ : mapEntry allocatePages (permissionOf true true) 2 (next + 8 * 1)
      ⟨ram, ramVirtualBase, ramSize, memory₁, g₃⟩ = .ok (.ok (), s') := by
    have hempty : memory₁ (next + 8 * 1) = 0#64 := by
      rw [hmemory₁, Function.update_of_ne (by omega), zeroTable, if_pos ⟨by omega, by omega⟩]
    exact (mapEntry_newTable (show ¬ blockSize 2 ≤ ramSize by decide) hempty h₄).trans hlast
  have hentry₃ : mapEntry allocatePages (permissionOf true true) 3 (base + 8 * 0)
      ⟨ram, ramVirtualBase, ramSize, zeroTable memory root 512, g₂⟩ = .ok (.ok (), s') :=
    (mapEntry_newTable (show ¬ blockSize 3 ≤ ramSize by decide) hempty h₃).trans
      (mapTable_first (show ramVirtualBase >>> (12 + 9 * 2) &&& (512 - 1) = 1 by decide) (by decide)
        hentry₂ h0)
  have hmap : mapAddressStage2 allocatePages ⟨vtcrValue 0b101#64, BitVec.ofNat 64 root⟩
      ram ramVirtualBase ramSize
      true true (zeroTable memory root 512) g₂ = .ok (.ok (), s'.memory, s'.pages) := by
    have hsize : ramSize &&& (2 ^ pageShift - 1) = 0 := by decide
    have hk : levelsBelow (vtcrSl0 (vtcrValue 0b101#64)) = 3 := by decide
    have hn : numberOfConcatenatedPageTables (vtcrT0sz (vtcrValue 0b101#64)) 3 * 512 = 512 := by decide
    rw [mapAddressStage2, if_neg (not_not.mpr hsize)]
    simp only [hk, hn, hbase]
    rw [mapTable_first (show ramVirtualBase >>> (12 + 9 * 3) &&& (512 - 1) = 0 by decide)
      (by decide) hentry₃ h0]
    rfl
  refine ⟨s'.memory, ?_, fun b hb hb' hne => ?_⟩
  · simp only [createVm, h₁, hinit, hmap, hpages, Exec.ok_bind, Exec.pure_eq_ok]
  · rw [hmem b hb']
    simp only [hmemory₂, hmemory₁]
    rw [Function.update_of_ne (fun hc => hb ⟨by omega, by omega⟩), zeroTable,
      if_neg (fun hc => hb' ⟨hc.1, by omega⟩), Function.update_of_ne hne, zeroTable,
      if_neg (fun hc => hb ⟨hc.1, by omega⟩)]

end Blocks

/-- The addresses of the RAM and of the three tables of a VM. -/
def vmAllocations (m : MemoryAllocator) :
    Exec (List (Option ℕ) × MemoryAllocator × List (ℕ × ℕ)) := do
  let (ram, g) ← recordPages (ramSize >>> pageShift) pageShift (m, [])
  let (root, g) ← recordPages 1 12 g
  let (next, g) ← recordPages 1 12 g
  let (last, g) ← recordPages 1 12 g
  pure ([ram, root, next, last], g)

section Allocations

variable {C : MemoryAllocator → Prop} {host : Host} {ram root next last base : ℕ}
  {g : MemoryAllocator × List (ℕ × ℕ)}

/-- The run goes on with a VM. -/
theorem HostRun.createVm_of_allocations (h : HostRun C host) (hC : C host.allocator)
    (halloc : vmAllocations host.allocator = .ok ([some ram, some root, some next, some last], g))
    (hbase : (BitVec.ofNat 64 root &&& vttbrBaddr).toNat = base)
    (hempty : zeroTable host.memory root 512 base = 0#64) (hapart : base ≠ next + 8)
    (hram : blockSize 1 ∣ ram) (hbound : ram + ramSize < 2 ^ 64) :
    ∃ host' guest, HostRun C host' ∧ host'.guests = guest :: host.guests ∧ host'.allocator = g.1 ∧
      guest.vm = ⟨ramVirtualBase, ram, ramSize⟩ ∧
      guest.regs = ⟨vtcrValue 0b101#64, BitVec.ofNat 64 root⟩ ∧
      ∀ b, b ∉ Set.Ico next (next + 4096) → b ∉ Set.Ico last (last + 4096) → b ≠ base →
        host'.memory b = zeroTable host.memory root 512 b := by
  simp only [vmAllocations, Exec.bind_eq_ok] at halloc
  obtain ⟨⟨_, g₁⟩, h₁, ⟨_, g₂⟩, h₂, ⟨_, g₃⟩, h₃, ⟨_, m, blocks⟩, h₄, halloc⟩ := halloc
  cases halloc
  obtain ⟨memory, hcreate, hmem⟩ := createVm_returns h₁ h₂ h₃ h₄ hbase hempty hapart hram hbound
  exact ⟨_, _, .createVm 0b101#64 h hC hcreate, rfl, rfl, rfl, rfl, hmem⟩

/-- The free memory stays below `2 ^ 47`. -/
theorem lowFree_of_allocations (h : HostRun LowFree host) (hlow : LowFree host.allocator)
    (halloc : vmAllocations host.allocator = .ok ([some ram, some root, some next, some last], g)) :
    LowFree g.1 := by
  have hinv := hostRun_invariant h
  simp only [vmAllocations, Exec.bind_eq_ok] at halloc
  obtain ⟨⟨_, g₁⟩, h₁, ⟨_, g₂⟩, h₂, ⟨_, g₃⟩, h₃, ⟨_, g₄⟩, h₄, halloc⟩ := halloc
  cases halloc
  have hv : (recordedPages host.blocks).Valid (host.allocator, []) := ⟨hinv.valid, hinv.apart, hlow⟩
  have hpages : ramSize >>> pageShift < 2 ^ 52 := by decide
  obtain ⟨hv₁, -⟩ := (recordedPages host.blocks).allocated hpages hv h₁
  obtain ⟨hv₂, -⟩ := (recordedPages host.blocks).allocated (by decide) hv₁ h₂
  obtain ⟨hv₃, -⟩ := (recordedPages host.blocks).allocated (by decide) hv₂ h₃
  obtain ⟨hv₄, -⟩ := (recordedPages host.blocks).allocated (by decide) hv₃ h₄
  exact hv₄.2.2

end Allocations

/-- One GiB of RAM at `base`, with the device tree, the image and the stack in it. -/
def exampleBoot (base : ℕ) : BootInfo where
  ram := (base, 0x40000000)
  dtb := (base + 0x8000000, 0x100000)
  segments := [(base + 0x8200000, 0x100000)]
  stackPointer := base + 0x8400000

/-- The addresses that the first two VMs get after boot. -/
def exampleAllocations (base : ℕ) : Exec (List (Option ℕ) × List (Option ℕ)) := do
  let (m, _) ← setupMemory (exampleBoot base)
  let (first, g) ← vmAllocations m
  let (second, _) ← vmAllocations g.1
  pure (first, second)

/-- With RAM at `0x40000000` two VMs are contained in the RAM that each of them has. -/
theorem hostRun_separated_two : ∃ host guest guest', HostRun LowFree host ∧ host.guests = [guest', guest] ∧
    guest.vm.ram = (0x48400000, 0x10000000) ∧ guest'.vm.ram = (0x58400000, 0x10000000) ∧
    guest.Contained host.memory ∧ guest'.Contained host.memory ∧
    Disjoint (blockBytes guest'.vm.ram) (blockBytes guest.vm.ram) := by
  have hall : exampleAllocations 0x40000000 =
      .ok ([some 0x48400000, some 0x48300000, some 0x48301000, some 0x48302000],
        [some 0x58400000, some 0x48303000, some 0x48304000, some 0x48305000]) := by decide +kernel
  simp only [exampleAllocations, Exec.bind_eq_ok] at hall
  obtain ⟨⟨m, reserved⟩, hsetup, ⟨first, g⟩, h₁, ⟨second, g'⟩, h₂, hall⟩ := hall
  cases hall
  have hlow : LowFree m := fun b hb => ((setupMemory_spec hsetup).2.1 hb).2.trans (by decide)
  have hrun := HostRun.setup (C := LowFree) _ (fun _ => 0#64) hsetup
  have hlow' := lowFree_of_allocations hrun hlow h₁
  obtain ⟨host, guest, hrun₁, hguests, hallocator, hvm, -⟩ := hrun.createVm_of_allocations hlow h₁
    (show _ = 0x48300000 by decide) (if_pos (by decide)) (by decide) (by decide) (by decide)
  rw [← hallocator] at hlow' h₂
  obtain ⟨host', guest', hrun₂, hguests', -, hvm', -⟩ := hrun₁.createVm_of_allocations hlow' h₂
    (show _ = 0x48303000 by decide) (if_pos (by decide)) (by decide) (by decide) (by decide)
  rw [hguests] at hguests'
  obtain ⟨hcontained, -, hblocks⟩ := hostRun_separated hrun₂
  have hpair := (List.pairwise_append.mp (List.pairwise_append.mp hblocks).2.1).1
  rw [hguests', List.flatMap_cons] at hpair
  exact ⟨host', guest, guest', hrun₂, hguests', by rw [hvm]; rfl, by rw [hvm']; rfl,
    hcontained guest (by simp [hguests']), hcontained guest' (by simp [hguests']),
    (List.pairwise_append.mp hpair).2.2 _ (by simp [Guest.blocks]) _ (by simp [Guest.blocks])⟩

/-- With RAM at `2 ^ 47` the RAM of the VM is not mapped : the table says otherwise than
`get_physical_address`. -/
theorem hostRun_not_contained : ∃ host g, HostRun (fun _ => True) host ∧ host.guests = [g] ∧
    translate g.regs host.memory ramVirtualBase = none ∧ ¬ g.Contained host.memory := by
  have hall : exampleAllocations (2 ^ 47) =
      .ok ([some 0x800008400000, some 0x800008300000, some 0x800008301000, some 0x800008302000],
        [some 0x800018400000, some 0x800008303000, some 0x800008304000, some 0x800008305000]) := by
          decide +kernel
  simp only [exampleAllocations, Exec.bind_eq_ok] at hall
  obtain ⟨⟨m, reserved⟩, hsetup, ⟨first, g⟩, h₁, ⟨second, g'⟩, -, hall⟩ := hall
  cases hall
  have hrun := HostRun.setup (C := fun _ => True) _ (fun _ => 0#64) hsetup
  obtain ⟨host, guest, hrun, hguests, -, hvm, hregs, hmem⟩ := hrun.createVm_of_allocations trivial h₁
    (show _ = 0x8300000 by decide) (ite_self _) (by decide) (by decide) (by decide)
  have ht : translate guest.regs host.memory ramVirtualBase = none := by
    have hroot : translationBase (BitVec.ofNat 64 0x800008300000) +
        8 * (ramVirtualBase / blockSize (levelsBelow (vtcrSl0 (vtcrValue 0b101#64)))) =
          0x800008300000 := by decide
    rw [hregs, translate, if_pos (by decide), hroot]
    refine walk_zero ((hmem _ (fun hc => ?_) (fun hc => ?_) (by decide)).trans (ite_self _)) _
    · exact absurd hc.1 (by decide)
    · exact absurd hc.1 (by decide)
  refine ⟨host, guest, hrun, hguests, ht, fun hc => ?_⟩
  have := (hc ramVirtualBase).1
  rw [ht, hvm] at this
  cases this

end MiniVisor
