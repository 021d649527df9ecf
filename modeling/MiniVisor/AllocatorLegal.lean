import MiniVisor.AllocatorCalls

/-!
# Legal use of the allocator

A legal run starts with `free` on the RAM and goes on with `allocate`, with `reserve_memory`
inside one free interval, and with `free` on blocks that were allocated. What can stop it is the
assertion of `set_range`, which no caller can avoid by being legal : a range of one byte is
refused, so a call traps when it would leave one byte of an entry alone (`Carves`), or free one
byte alone (`Releases`). `free_size` grows by a block's size twice when it is freed, and it can
overflow in the end.

`LegalRun` is a legal run whose calls avoid these states. None of its calls traps.
-/

namespace MiniVisor

open Machine

namespace MemoryAllocator

/-- `allocate` leaves no single byte of the entry it takes the block from. -/
def AllocateFits (m : MemoryAllocator) (size o : ℕ) : Prop :=
  m.freeSize ≤ size ∨ ∀ i a, m.picked size o = some (i, a) → m.Carves i a size

/-- `reserve_memory` is called inside one free interval. -/
def ReserveInside (m : MemoryAllocator) (start size o i : ℕ) : Prop :=
  i ∈ m.chain ∧
    reservedBytes start size o ⊆ Set.Icc (m.pool.startAddress i) (m.pool.endAddress i)

end MemoryAllocator

section

variable {m m' : MemoryAllocator} {L : List ℕ} {B : ℕ → List ℕ} {start size o i : ℕ}

/-- `allocate` returns exactly if it leaves no single byte. -/
theorem Inv.allocate_returns_iff (h : Inv m L B) (hlt : ∀ i ∈ L, m.pool.endAddress i < 2 ^ 48)
    (hz : 1 ≤ size) (ho : o < 48) : (m.allocate size o).Returns ↔ m.AllocateFits size o := by
  by_cases hf : m.freeSize ≤ size
  · rw [MemoryAllocator.allocate, if_neg (by omega), if_pos hf]
    exact iff_of_true (Exec.returns_ok _) (.inl hf)
  rw [h.allocate_eq hlt ho (by omega) (not_le.mp hf), MemoryAllocator.AllocateFits,
    or_iff_right hf]
  cases hp : m.picked size o with
  | none => exact iff_of_true (Exec.returns_ok _) (by simp)
  | some found =>
    obtain ⟨i, a⟩ := found
    obtain ⟨hi, hroom⟩ := h.picked_eq_some hp
    obtain ⟨rfl, hfit⟩ := room_eq_some hroom
    obtain ⟨A, C, rfl⟩ := List.append_of_mem hi
    have hlt' : ∀ j ∈ A ++ i :: C, m.pool.endAddress j + 1 < 2 ^ 64 := fun j hj => by
      have := hlt j hj
      omega
    have hret : (m.take size (some (i, roundUp (m.pool.startAddress i) o))).Returns ↔
        (m.useRange i (roundUp (m.pool.startAddress i) o) size).Returns := Exec.returns_map _ _
    rw [hret]
    simp only [Option.some.injEq, Prod.mk.injEq]
    constructor
    · rintro hr _ _ ⟨rfl, rfl⟩
      by_contra hc
      rw [h.useRange_assertion hlt' (le_roundUp _ _) hfit (by omega) hc] at hr
      exact Exec.not_returns_error _ hr
    · intro hc
      exact h.useRange_returns hlt' (le_roundUp _ _) hfit (by omega) (by omega)
        (hc _ _ ⟨rfl, rfl⟩)

/-- The aligned range of a reservation below `2 ^ 48`. -/
theorem alignAddressAndSize_eq (hz : size ≠ 0) (hs : start + size ≤ 2 ^ 48)
    (ho : o ≤ 48) : alignAddressAndSize start size o =
      .ok (alignedStart start o, alignedSize start size o) := by
  have hpos := Nat.two_pow_pos o
  have hpow : 2 ^ o ≤ 2 ^ 48 := Nat.pow_le_pow_right (by decide) ho
  have hdown := Nat.div_mul_le_self start (2 ^ o)
  have hlast := @last_block start size o hz
  have hdown' := Nat.div_mul_le_self (size + (start - start / 2 ^ o * 2 ^ o) - 1) (2 ^ o)
  rw [alignAddressAndSize, checkedShl_one_eq_ok.mpr ⟨by omega, rfl⟩, Exec.ok_bind]
  dsimp only
  rw [land_bitNot_two_pow (by omega) (by omega), checkedAdd_of_lt (by omega), Exec.ok_bind,
    checkedSub_of_le (by omega), Exec.ok_bind, land_bitNot_two_pow (by omega) (by omega),
    checkedAdd_of_lt (by omega), Exec.ok_bind, alignedStart, alignedSize, hlast, Nat.add_mul]
  congr 2
  omega

/-- The aligned range of a reservation is in the entry, too. -/
theorem ReserveInside.bounds (hz : size ≠ 0) (hin : m.ReserveInside start size o i) :
    m.pool.startAddress i ≤ alignedStart start o ∧
      alignedStart start o + alignedSize start size o ≤ m.pool.endAddress i + 1 ∧
        size ≤ alignedSize start size o ∧ start + size ≤ m.pool.endAddress i + 1 ∧
          2 ^ o ≤ m.pool.endAddress i + 1 := by
  obtain ⟨-, hsub⟩ := hin
  have hpos := Nat.two_pow_pos o
  have hdown := Nat.div_mul_le_self start (2 ^ o)
  have hle : start / 2 ^ o * 2 ^ o ≤ (start + size - 1) / 2 ^ o * 2 ^ o :=
    Nat.mul_le_mul_right _ (Nat.div_le_div_right (by omega))
  have hlt := Nat.lt_div_mul_add (a := start + size - 1) hpos
  have hlen : 2 ^ o ≤ alignedSize start size o ∧ size ≤ alignedSize start size o := by
    simp only [alignedSize]
    omega
  have hlast := Set.mem_Icc.mp (hsub (Ico_subset_reservedBytes start size o
    (Set.mem_Ico.mpr ⟨(by omega : start ≤ start + size - 1), by omega⟩)))
  rw [reservedBytes_eq hz] at hsub
  have h1 := Set.mem_Icc.mp (hsub (Set.mem_Ico.mpr ⟨le_rfl, by omega⟩))
  have h2 := Set.mem_Icc.mp (hsub (Set.mem_Ico.mpr ⟨(by omega : alignedStart start o ≤
    alignedStart start o + alignedSize start size o - 1), by omega⟩))
  omega

/-- `reserve_memory` inside one entry takes the aligned range out of it. -/
theorem Inv.reserveMemory_eq (h : Inv m L B) (hlt : ∀ i ∈ L, m.pool.endAddress i < 2 ^ 48)
    (hz : size ≠ 0) (hin : m.ReserveInside start size o i) :
    m.reserveMemory start size o =
      m.useRange i (alignedStart start o) (alignedSize start size o) ∧
    alignedSize start size o ≤ m.freeSize := by
  obtain ⟨hs, he, hsize, hend, hpow⟩ := ReserveInside.bounds hz hin
  have hi : i ∈ L := h.chain_eq ▸ hin.1
  have hi48 := hlt i hi
  obtain ⟨A, C, rfl⟩ := List.append_of_mem hi
  have hcount := h.counted
  simp only [List.map_append, List.map_cons, total_append, total_cons, MemoryEntryPool.range]
    at hcount
  have hsearch : m.pool.searchEntryContainingAddress m.firstEntry (alignedStart start o) =
      .ok (some i) := by
    refine h.shape.chain.searchEntryContainingAddress (fun j hj => ?_) ⟨hs, by omega⟩
    have hle := h.separated.1 (m.pool.range j) (by simp [List.mem_map_of_mem hj])
    have hlt := (separated_append.mp (List.map_append ▸ h.separated)).2.2 _
      (List.mem_map_of_mem hj) (m.pool.range i) (by simp)
    simp only [MemoryEntryPool.range] at hle hlt
    omega
  have hused : m.defineUsedRange (alignedStart start o) (alignedSize start size o) none =
      m.useRange i (alignedStart start o) (alignedSize start size o) := by
    rw [MemoryAllocator.defineUsedRange, if_neg (by omega), if_neg (by omega), hsearch]
    rfl
  refine ⟨?_, by omega⟩
  by_cases ho : o = 0
  · subst ho
    have h1 : alignedStart start 0 = start := by simp [alignedStart]
    have h2 : alignedSize start size 0 = size := by
      simp only [alignedSize, pow_zero, Nat.div_one, Nat.mul_one]
      omega
    rw [h1, h2] at hused ⊢
    rw [← hused]
    rfl
  · have ho48 : o ≤ 48 := by
      by_contra hc
      have : 2 ^ 48 < 2 ^ o := Nat.pow_lt_pow_right (by decide) (by omega)
      omega
    rw [MemoryAllocator.reserveMemory, MemoryAllocator.defineUsedMemory, if_neg ho, if_neg hz,
      if_neg (by omega), alignAddressAndSize_eq hz (by omega) ho48, Exec.ok_bind]
    exact hused

/-- `reserve_memory` inside one entry returns exactly if it leaves no single byte. -/
theorem Inv.reserveMemory_returns_iff (h : Inv m L B)
    (hlt : ∀ i ∈ L, m.pool.endAddress i < 2 ^ 48) (hz : size ≠ 0)
    (hin : m.ReserveInside start size o i) :
    (m.reserveMemory start size o).Returns ↔
      m.Carves i (alignedStart start o) (alignedSize start size o) := by
  obtain ⟨hs, he, hsize, -, -⟩ := ReserveInside.bounds hz hin
  obtain ⟨heq, hf⟩ := h.reserveMemory_eq hlt hz hin
  obtain ⟨A, C, rfl⟩ := List.append_of_mem (h.chain_eq ▸ hin.1)
  have hlt' : ∀ j ∈ A ++ i :: C, m.pool.endAddress j + 1 < 2 ^ 64 := fun j hj => by
    have := hlt j hj
    omega
  rw [heq]
  constructor
  · intro hr
    by_contra hc
    rw [h.useRange_assertion hlt' hs he (by omega) hc] at hr
    exact Exec.not_returns_error _ hr
  · intro hc
    exact h.useRange_returns hlt' hs he (by omega) hf hc

/-- The last entry is never used up. -/
theorem Inv.nonempty_of_useRange {A C : List ℕ} {x : ℕ} (h : Inv m (A ++ x :: C) B)
    (hlt : m.pool.endAddress x + 1 < 2 ^ 64) (hs : m.pool.startAddress x ≤ start)
    (hr : m.useRange x start size = .ok (.ok (), m')) :
    (m.freeBytes \ Set.Ico start (start + size)).Nonempty := by
  by_contra hne
  have hall : ∀ b ∈ m.freeBytes, start ≤ b ∧ b < start + size := by
    intro b hb
    by_contra hc
    exact hne ⟨b, hb, fun hc' => hc (Set.mem_Ico.mp hc')⟩
  have hend := h.le_of_useRange hr
  have h1 := hall _ (h.startAddress_mem (i := x) (by simp))
  have h2 := hall _ (h.endAddress_mem (i := x) (by simp))
  have hsep := h.separated
  simp only [List.map_append, List.map_cons] at hsep
  -- Every other entry would be inside the range too.
  have hA : A = [] := by
    refine List.eq_nil_iff_forall_not_mem.mpr fun j hj => ?_
    have := hall _ (h.endAddress_mem (i := j) (by simp [hj]))
    have := (separated_append.mp hsep).2.2 _ (List.mem_map_of_mem hj) (m.pool.range x) (by simp)
    simp only [MemoryEntryPool.range] at this
    omega
  have hC : C = [] := by
    refine List.eq_nil_iff_forall_not_mem.mpr fun j hj => ?_
    have := hall _ (h.startAddress_mem (i := j) (by simp [hj]))
    have := (separated_cons.mp (separated_append.mp hsep).2.1).2.2 _ (List.mem_map_of_mem hj)
    simp only [MemoryEntryPool.range] at this
    omega
  subst hA hC
  have hprev : m.pool.previous x = none := h.shape.chain.previous (A := [])
  have hnext : m.pool.getNextEntry x = none := h.shape.chain.getNextEntry (A := [])
  have hstop : getEndAddress start size = .ok (start + size - 1) := by
    rw [getEndAddress, checkedAdd_of_lt (by omega), Exec.ok_bind, checkedSub_of_le (by omega)]
  rw [MemoryAllocator.useRange, if_pos (by omega), hstop, Exec.ok_bind, if_pos (by omega),
    MemoryAllocator.useEntry, hprev, hnext] at hr
  cases hr

end

/-! ## Runs -/

/-- A call of a legal run. -/
inductive AllocatorCall
  | allocate (size o : ℕ)
  | reserveMemory (start size o : ℕ)
  | free (start size : ℕ)

namespace AllocatorCall

/-- The call, with the allocated blocks that are in use. -/
def run (m : MemoryAllocator) (live : List (ℕ × ℕ)) :
    AllocatorCall → Exec (MemoryAllocator × List (ℕ × ℕ))
  | allocate size o => do
    let (r, m) ← m.allocate size o
    pure (m, blocksAfterUse live (fun a => (a, size)) r)
  | reserveMemory start size o => do
    let (_, m) ← m.reserveMemory start size o
    pure (m, live)
  | free start size => do
    let (r, m) ← m.free start size
    pure (m, blocksAfterFree live start size r)

/-- What a caller promises. -/
def Legal (m : MemoryAllocator) (live : List (ℕ × ℕ)) : AllocatorCall → Prop
  | allocate size o => 1 ≤ size ∧ o ≤ 47
  | reserveMemory start size o => ∃ i, m.ReserveInside start size o i
  | free start size => (start, size) ∈ live

/-- The state is not one of those in which a legal call traps. -/
def Fits (m : MemoryAllocator) : AllocatorCall → Prop
  | allocate size o => m.AllocateFits size o
  | reserveMemory start size o => size = 0 ∨ ∀ i, m.ReserveInside start size o i →
    m.Carves i (alignedStart start o) (alignedSize start size o)
  | free start size => m.Releases start size

end AllocatorCall

/-- The calls one after the other. -/
def runCalls : List AllocatorCall → MemoryAllocator × List (ℕ × ℕ) →
    Exec (MemoryAllocator × List (ℕ × ℕ))
  | [], s => .ok s
  | c :: calls, s => do runCalls calls (← c.run s.1 s.2)

/-- Every call is legal in the state it is made in, and fits there. -/
def LegalRun : List AllocatorCall → MemoryAllocator × List (ℕ × ℕ) → Prop
  | [], _ => True
  | c :: calls, s => c.Legal s.1 s.2 ∧ c.Fits s.1 ∧ ∀ s', c.run s.1 s.2 = .ok s' → LegalRun calls s'

/-- What holds between the calls. -/
structure LegalState (m : MemoryAllocator) (live : List (ℕ × ℕ)) : Prop where
  valid : m.Valid
  nonempty : m.freeBytes.Nonempty
  below : ∀ b ∈ m.freeBytes, b < 2 ^ 48
  apart : BlocksApart m.freeBytes live
  blocks : ∀ b ∈ live, 1 ≤ b.2 ∧ b.1 + b.2 ≤ 2 ^ 48

section

variable {m m' : MemoryAllocator} {live : List (ℕ × ℕ)} {start size o : ℕ}

theorem LegalState.inv (h : LegalState m live) : ∃ L B, Inv m L B ∧ L ≠ [] ∧
    ∀ i ∈ L, m.pool.endAddress i < 2 ^ 48 := by
  obtain ⟨⟨L, B, hinv⟩, -⟩ := h.valid
  refine ⟨L, B, hinv, ?_, fun i hi => h.below _ (hinv.endAddress_mem hi)⟩
  rintro rfl
  obtain ⟨b, hb⟩ := h.nonempty
  rw [hinv.freeBytes_eq] at hb
  simp at hb

theorem LegalState.allocate (h : LegalState m live) (hz : 1 ≤ size) (ho : o ≤ 47)
    (hfit : m.AllocateFits size o) : ∃ r m', m.allocate size o = .ok (r, m') ∧
      LegalState m' (blocksAfterUse live (fun a => (a, size)) r) := by
  obtain ⟨L, B, hinv, -, hlt⟩ := h.inv
  obtain ⟨⟨r, m'⟩, he⟩ := (hinv.allocate_returns_iff hlt hz (by omega)).mpr hfit
  refine ⟨r, m', he, ?_⟩
  obtain ⟨hc, ha⟩ := h.valid.allocate he
  have hapart := h.apart.use (fun a => (a, size)) hc fun a hr => (ha a hr).2
  cases r with
  | error e =>
    have hsame : m' = m := hc
    exact hsame ▸ h
  | ok a =>
    obtain ⟨hv, hF⟩ := hc
    obtain ⟨⟨L', B', hinv'⟩, -⟩ := id hv
    have hne : (m'.freeBytes).Nonempty := by
      have hfs := (freeSize_of_allocate he).2.2
      obtain ⟨i, L', rfl⟩ := List.exists_cons_of_ne_nil fun hc => hfs (hinv'.unused hc)
      exact ⟨_, hinv'.startAddress_mem (i := i) (by simp)⟩
    refine ⟨hv, hne, fun b hb => h.below b (hF ▸ hb).1, hapart, fun b hb => ?_⟩
    rcases List.mem_cons.mp hb with rfl | hb
    · have hlast := h.below _ ((ha a rfl).2 (Set.mem_Ico.mpr
        ⟨(by omega : a ≤ a + size - 1), by omega⟩))
      exact ⟨hz, by simp only; omega⟩
    · exact h.blocks b hb

theorem LegalState.reserveMemory (h : LegalState m live)
    (hin : ∃ i, m.ReserveInside start size o i)
    (hfit : size = 0 ∨ ∀ i, m.ReserveInside start size o i →
      m.Carves i (alignedStart start o) (alignedSize start size o)) :
    ∃ r m', m.reserveMemory start size o = .ok (r, m') ∧ LegalState m' live := by
  obtain ⟨L, B, hinv, -, hlt⟩ := h.inv
  by_cases hz : size = 0
  · refine ⟨.error .invalidRequest, m, ?_, h⟩
    simp only [MemoryAllocator.reserveMemory, MemoryAllocator.defineUsedMemory,
      MemoryAllocator.defineUsedRange, hz, if_true, ite_self]
  obtain ⟨i, hin⟩ := hin
  obtain ⟨⟨r, m'⟩, he⟩ := (hinv.reserveMemory_returns_iff hlt hz hin).mpr
    (hfit.resolve_left hz i hin)
  refine ⟨r, m', he, ?_⟩
  have hc := h.valid.reserveAligned ⟨i, hin⟩ he
  cases r with
  | error e =>
    have hsame : m' = m := hc
    exact hsame ▸ h
  | ok u =>
    obtain ⟨hv, hF⟩ := hc
    obtain ⟨heq, -⟩ := hinv.reserveMemory_eq hlt hz hin
    refine ⟨hv, ?_, fun b hb => h.below b (hF ▸ hb).1, ⟨h.apart.1, fun b hb => ?_⟩, h.blocks⟩
    · obtain ⟨A, C, rfl⟩ := List.append_of_mem (hinv.chain_eq ▸ hin.1)
      rw [hF, reservedBytes_eq hz]
      refine hinv.nonempty_of_useRange ?_ (ReserveInside.bounds hz hin).1 (heq ▸ he)
      have := hlt i (by simp)
      omega
    · rw [hF]
      exact (h.apart.2 b hb).mono_right Set.sdiff_subset

theorem LegalState.free (h : LegalState m live) (hb : (start, size) ∈ live)
    (hfit : m.Releases start size) : ∃ r m', m.free start size = .ok (r, m') ∧
      LegalState m' (blocksAfterFree live start size r) := by
  obtain ⟨L, B, hinv, hL, hlt⟩ := h.inv
  obtain ⟨hz, htop⟩ := h.blocks _ hb
  have hdisj : Disjoint (Set.Ico start (start + size)) m.freeBytes := h.apart.2 _ hb
  simp only at hz htop
  obtain ⟨⟨r, m'⟩, he⟩ := hinv.free_returns hL (fun i hi => by have := hlt i hi; omega) (by omega)
    hdisj (by omega) hfit
  refine ⟨r, m', he, ?_⟩
  have hc := h.valid.freed hdisj he
  have hapart := h.apart.free hc
  cases r with
  | error e =>
    have hsame : m' = m := hc
    exact hsame ▸ h
  | ok u =>
    obtain ⟨hv, hF⟩ := hc
    refine ⟨hv, hF ▸ h.nonempty.inl, fun b hb => ?_, hapart, fun b hb => ?_⟩
    · rw [hF] at hb
      rcases hb with hb | hb
      · exact h.below b hb
      · have := (Set.mem_Ico.mp hb).2
        omega
    · exact h.blocks b (List.mem_filter.mp hb).1

/-- A legal call that fits returns, and the next call finds a legal state. -/
theorem LegalState.step (h : LegalState m live) {c : AllocatorCall} (hc : c.Legal m live)
    (hfit : c.Fits m) : ∃ s, c.run m live = .ok s ∧ LegalState s.1 s.2 := by
  cases c with
  | allocate size o =>
    obtain ⟨r, m', he, h'⟩ := h.allocate hc.1 hc.2 hfit
    exact ⟨(m', blocksAfterUse live (fun a => (a, size)) r), by simp only [AllocatorCall.run, he,
      Exec.ok_bind, Exec.pure_eq_ok],
      h'⟩
  | reserveMemory start size o =>
    obtain ⟨r, m', he, h'⟩ := h.reserveMemory hc hfit
    exact ⟨(m', live), by simp only [AllocatorCall.run, he, Exec.ok_bind, Exec.pure_eq_ok],
      h'⟩
  | free start size =>
    obtain ⟨r, m', he, h'⟩ := h.free hc hfit
    exact ⟨(m', blocksAfterFree live start size r), by simp only [AllocatorCall.run, he,
      Exec.ok_bind, Exec.pure_eq_ok],
      h'⟩

theorem LegalState.runCalls_returns : ∀ (calls : List AllocatorCall)
    {s : MemoryAllocator × List (ℕ × ℕ)}, LegalState s.1 s.2 → LegalRun calls s →
      (runCalls calls s).Returns
  | [], _, _, _ => Exec.returns_ok _
  | c :: calls, s, h, ⟨hc, hfit, hnext⟩ => by
    obtain ⟨s', he, h'⟩ := h.step hc hfit
    rw [runCalls, he, Exec.ok_bind]
    exact runCalls_returns calls h' (hnext s' he)

/-- The first call of a run. -/
theorem free_new_returns (hsize : 2 ≤ size) (htop : start + size < 2 ^ 64) :
    ∃ m, MemoryAllocator.new.free start size = .ok (.ok (), m) := by
  have hcreate : MemoryEntryPool.new.createMemoryEntry = some (0, MemoryEntryPool.new.fresh 0) :=
    rfl
  have hsz : ((MemoryEntryPool.new.fresh 0).withRange 0 start (start + size - 1)).Sized 0 :=
    MemoryEntryPool.Sized.withRange (by simp) (by omega) (by omega)
  have hlinks : ((MemoryEntryPool.new.fresh 0).withRange 0 start (start + size - 1)).listNext 0 =
      none ∧ ((MemoryEntryPool.new.fresh 0).withRange 0 start (start + size - 1)).listPrev 0 =
        none := ⟨rfl, rfl⟩
  simp only [MemoryAllocator.free, MemoryAllocator.new, hcreate, getEndAddress, if_true,
    checkedAdd_of_lt htop, Exec.ok_bind, checkedSub_of_le (show 1 ≤ start + size by omega),
    MemoryEntryPool.setRange, assert_of (show start < start + size - 1 by omega),
    Exec.pure_eq_ok, MemoryAllocator.rechain, chainEntryToFreeList,
    MemoryEntryPool.getSize_of_sized hsz, insertIntoFreeList, assert_of hlinks.1,
    assert_of hlinks.2, Option.bind_none]
  exact ⟨_, rfl⟩

theorem legalState_start {m : MemoryAllocator} (htop : start + size ≤ 2 ^ 48)
    (he : MemoryAllocator.new.free start size = .ok (.ok (), m)) (hz : size ≠ 0) :
    LegalState m [] := by
  have hnone : MemoryAllocator.new.freeBytes = ∅ := by
    rw [Inv.new.freeBytes_eq, List.map_nil, covered_nil]
  obtain ⟨hv, hF⟩ := MemoryAllocator.valid_new.freed (by simp [hnone]) he
  rw [hnone, Set.empty_union] at hF
  refine ⟨hv, ⟨start, ?_⟩, fun b hb => ?_, ⟨List.Pairwise.nil, by simp⟩, by simp⟩
  · rw [hF]
    exact Set.mem_Ico.mpr ⟨le_rfl, by omega⟩
  · rw [hF] at hb
    have := (Set.mem_Ico.mp hb).2
    omega

/-- A run on RAM of two bytes at least : its first call returns, and so do all the legal calls
after it, as long as each of them fits the state it is made in. -/
theorem legalRun_returns {base ramSize : ℕ} (hram : 2 ≤ ramSize) (hbase : base + ramSize ≤ 2 ^ 48) :
    ∃ m, MemoryAllocator.new.free base ramSize = .ok (.ok (), m) ∧
      ∀ calls, LegalRun calls (m, []) → (runCalls calls (m, [])).Returns := by
  obtain ⟨m, he⟩ := @free_new_returns base ramSize hram (by omega)
  exact ⟨m, he, fun calls hcalls =>
    LegalState.runCalls_returns calls (legalState_start hbase he (by omega)) hcalls⟩

/-- A page is allocated and freed again. -/
theorem legalRun_returns_page : ∃ m, MemoryAllocator.new.free 0x1000 0x4000 = .ok (.ok (), m) ∧
    (runCalls [.allocate 0x1000 12, .free 0x1000 0x1000] (m, [])).Returns := by
  obtain ⟨m, he, hrun⟩ := @legalRun_returns 0x1000 0x4000 (by decide) (by decide)
  refine ⟨m, he, hrun _ ⟨by simp [AllocatorCall.Legal], ?_, ?_⟩⟩
  · cases he
    refine .inr fun i a hp => ?_
    obtain ⟨rfl, rfl⟩ := Prod.ext_iff.mp (Option.some.inj (hp.symm.trans
      (by decide : _ = some (0, 0x1000))))
    exact .inl (by decide)
  · cases he
    intro s hs
    cases hs
    exact ⟨List.mem_singleton.mpr rfl, .inr ⟨.inl (by decide), by decide⟩, fun _ _ => trivial⟩

/-- A page without its last byte cannot be allocated from a page : the byte cannot stay. -/
theorem allocate_traps : ∃ m, MemoryAllocator.new.free 0x1000 0x1000 = .ok (.ok (), m) ∧
    m.allocate 4095 0 = .error .assertion :=
  ⟨_, rfl, rfl⟩

end

end MiniVisor
