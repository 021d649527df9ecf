import MiniVisor.AllocatorScan

/-!
# Runs of calls to the allocator

`CallRun` is a run of calls from `new` : `free` on ranges that are not free, `reserve_memory`
inside one free interval, `allocate` with any size and alignment. The invariant holds in all of
its states.

`allocate` finds a block whenever there is one (`allocate_complete`). The byte count is another
matter : `define_free_memory` adds the size of a range to `free_size`, and `free` adds it once
more. `CountedRun` is a run whose `free` calls do not get that far, and there the count is right.
-/

namespace MiniVisor

open Machine

/-- The first byte that `reserve_memory` takes. -/
def alignedStart (start o : ℕ) : ℕ :=
  start / 2 ^ o * 2 ^ o

/-- The number of bytes it takes. -/
def alignedSize (start size o : ℕ) : ℕ :=
  (start + size - 1) / 2 ^ o * 2 ^ o + 2 ^ o - start / 2 ^ o * 2 ^ o

/-- The bytes that `reserve_memory` takes : the blocks of `2 ^ o` bytes that its range
touches. -/
def reservedBytes (start size o : ℕ) : Set ℕ :=
  {b | ∃ c ∈ Set.Ico start (start + size), b / 2 ^ o = c / 2 ^ o}

section

variable {m m' : MemoryAllocator} {start size o : ℕ} {r : MemoryResult Unit}

theorem Ico_subset_reservedBytes (start size o : ℕ) :
    Set.Ico start (start + size) ⊆ reservedBytes start size o :=
  fun b hb => ⟨b, hb, rfl⟩

theorem reservedBytes_zero (start size : ℕ) :
    reservedBytes start size 0 = Set.Ico start (start + size) := by
  ext b
  simp only [reservedBytes, pow_zero, Nat.div_one, Set.mem_ofPred_eq]
  exact ⟨fun ⟨c, hc, hbc⟩ => hbc ▸ hc, fun hb => ⟨b, hb, rfl⟩⟩

/-- The blocks are those from the first byte's to the last byte's. -/
theorem mem_reservedBytes {b : ℕ} (hz : size ≠ 0) : b ∈ reservedBytes start size o ↔
    start / 2 ^ o ≤ b / 2 ^ o ∧ b / 2 ^ o ≤ (start + size - 1) / 2 ^ o := by
  have hpos := Nat.two_pow_pos o
  constructor
  · rintro ⟨c, hc, hbc⟩
    have hc := Set.mem_Ico.mp hc
    rw [hbc]
    exact ⟨Nat.div_le_div_right hc.1, Nat.div_le_div_right (by omega)⟩
  · rintro ⟨h1, h2⟩
    by_cases heq : b / 2 ^ o = start / 2 ^ o
    · exact ⟨start, Set.mem_Ico.mpr ⟨le_rfl, by omega⟩, heq⟩
    · have h3 : start < b / 2 ^ o * 2 ^ o := by
        rw [← Nat.div_lt_iff_lt_mul hpos]
        omega
      have h4 : b / 2 ^ o * 2 ^ o ≤ start + size - 1 := (Nat.le_div_iff_mul_le hpos).mp h2
      exact ⟨b / 2 ^ o * 2 ^ o, Set.mem_Ico.mpr ⟨h3.le, by omega⟩,
        (Nat.mul_div_cancel _ hpos).symm⟩

/-- The block of the last byte, counted from the block of the first. -/
theorem last_block (hz : size ≠ 0) : (start + size - 1) / 2 ^ o =
    (size + (start - start / 2 ^ o * 2 ^ o) - 1) / 2 ^ o + start / 2 ^ o := by
  have hdown := Nat.div_mul_le_self start (2 ^ o)
  rw [← Nat.add_mul_div_right _ _ (Nat.two_pow_pos o)]
  congr 1
  omega

/-- The blocks are one range. -/
theorem reservedBytes_eq (hz : size ≠ 0) : reservedBytes start size o =
    Set.Ico (alignedStart start o) (alignedStart start o + alignedSize start size o) := by
  have hpos := Nat.two_pow_pos o
  have hle : start / 2 ^ o * 2 ^ o ≤ (start + size - 1) / 2 ^ o * 2 ^ o :=
    Nat.mul_le_mul_right _ (Nat.div_le_div_right (by omega))
  ext b
  have hupper : b / 2 ^ o < (start + size - 1) / 2 ^ o + 1 ↔
      b < ((start + size - 1) / 2 ^ o + 1) * 2 ^ o := Nat.div_lt_iff_lt_mul hpos
  rw [Nat.add_mul, Nat.one_mul] at hupper
  rw [mem_reservedBytes hz, Set.mem_Ico, Nat.le_div_iff_mul_le hpos, alignedStart, alignedSize]
  omega

/-- `align_address_and_size` gives this range. -/
theorem alignAddressAndSize_eq_ok {a s : ℕ} (hs : start < 2 ^ 64) (hz : size ≠ 0)
    (h : alignAddressAndSize start size o = .ok (a, s)) :
    a = alignedStart start o ∧ s = alignedSize start size o := by
  simp only [alignAddressAndSize, Exec.bind_eq_ok] at h
  obtain ⟨_, hshl, _, hadd, _, hsub, _, hadd', h⟩ := h
  obtain ⟨ho, rfl⟩ := checkedShl_one_eq_ok.mp hshl
  rw [land_bitNot_two_pow ho.le hs] at h hadd
  obtain ⟨hlt, rfl⟩ := checkedAdd_eq_ok.mp hadd
  obtain ⟨-, rfl⟩ := checkedSub_eq_ok.mp hsub
  rw [land_bitNot_two_pow ho.le (by omega)] at hadd'
  obtain ⟨-, rfl⟩ := checkedAdd_eq_ok.mp hadd'
  cases h
  refine ⟨rfl, ?_⟩
  rw [alignedSize, last_block hz, Nat.add_mul, Nat.add_right_comm, Nat.add_sub_cancel]

/-- `reserve_memory` with an alignment is `reserve_memory` of the aligned range. -/
theorem reserveMemory_eq_ok (hr : m.reserveMemory start size o = .ok (r, m')) :
    ((∃ e, r = .error e) ∧ m' = m) ∨ (size ≠ 0 ∧ ∃ a s,
      (o = 0 ∧ a = start ∧ s = size ∨ alignAddressAndSize start size o = .ok (a, s)) ∧
        m.reserveMemory a s 0 = .ok (r, m')) := by
  by_cases hz : size = 0
  · left
    simp only [MemoryAllocator.reserveMemory, MemoryAllocator.defineUsedMemory,
      MemoryAllocator.defineUsedRange, hz, if_true, ite_self] at hr
    cases hr
    exact ⟨⟨_, rfl⟩, rfl⟩
  by_cases ho : o = 0
  · subst ho
    exact .inr ⟨hz, start, size, .inl ⟨rfl, rfl, rfl⟩, hr⟩
  · simp only [MemoryAllocator.reserveMemory, MemoryAllocator.defineUsedMemory, ho, hz,
      if_false] at hr
    split_ifs at hr with hf
    · cases hr
      exact .inl ⟨⟨_, rfl⟩, rfl⟩
    · obtain ⟨⟨a, s⟩, halign, hr⟩ := Exec.bind_eq_ok.mp hr
      exact .inr ⟨hz, a, s, .inr halign, hr⟩

namespace MemoryAllocator

theorem Valid.reserveAligned (h : m.Valid)
    (hin : ∃ i ∈ m.chain, reservedBytes start size o ⊆
      Set.Icc (m.pool.startAddress i) (m.pool.endAddress i))
    (hr : m.reserveMemory start size o = .ok (r, m')) :
    m.Changed r m' fun _ => m.freeBytes \ reservedBytes start size o := by
  rcases reserveMemory_eq_ok hr with ⟨⟨e, rfl⟩, rfl⟩ | ⟨hz, a, s, halign, hr⟩
  · rfl
  · obtain ⟨i, hi, hsub⟩ := hin
    have hstart : start ∈ m.freeBytes :=
      ⟨_, List.mem_map_of_mem hi, hsub (Ico_subset_reservedBytes _ _ _
        (Set.mem_Ico.mpr ⟨le_rfl, by omega⟩))⟩
    have hbytes : reservedBytes start size o = Set.Ico a (a + s) := by
      rcases halign with ⟨rfl, rfl, rfl⟩ | halign
      · exact reservedBytes_zero _ _
      · obtain ⟨rfl, rfl⟩ := alignAddressAndSize_eq_ok (h.2 start hstart) hz halign
        exact reservedBytes_eq hz
    rw [hbytes] at hsub ⊢
    exact h.reserveMemory ⟨i, hi, hsub⟩ hr

end MemoryAllocator

/-! ## Runs -/

/-- A run of calls from `new` in which no assertion and no overflow check fails. -/
inductive CallRun : MemoryAllocator → Prop
  | new : CallRun .new
  | free {m m' : MemoryAllocator} {r : MemoryResult Unit} (start size : ℕ) (h : CallRun m)
      (hfree : Disjoint (Set.Ico start (start + size)) m.freeBytes)
      (he : m.free start size = .ok (r, m')) : CallRun m'
  | reserveMemory {m m' : MemoryAllocator} {r : MemoryResult Unit} (start size o : ℕ)
      (h : CallRun m) (hin : ∃ i ∈ m.chain, reservedBytes start size o ⊆
        Set.Icc (m.pool.startAddress i) (m.pool.endAddress i))
      (he : m.reserveMemory start size o = .ok (r, m')) : CallRun m'
  | allocate {m m' : MemoryAllocator} {r : MemoryResult ℕ} (size o : ℕ) (h : CallRun m)
      (he : m.allocate size o = .ok (r, m')) : CallRun m'

theorem lt_of_getEndAddress {stop : ℕ} (h : getEndAddress start size = .ok stop) :
    start + size < 2 ^ 64 := by
  obtain ⟨_, hsum, -⟩ := Exec.bind_eq_ok.mp h
  exact (checkedAdd_eq_ok.mp hsum).1

/-- A range that was freed ends in the address space. -/
theorem lt_of_free (hr : m.free start size = .ok (.ok (), m')) : start + size < 2 ^ 64 := by
  unfold MemoryAllocator.free at hr
  split_ifs at hr with hf
  · cases hc : m.pool.createMemoryEntry with
    | none =>
      rw [hc] at hr
      cases hr
    | some new =>
      simp only [hc, Exec.bind_eq_ok] at hr
      obtain ⟨stop, hstop, -⟩ := hr
      exact lt_of_getEndAddress hstop
  · obtain ⟨⟨r₁, m₁⟩, h₁, hr⟩ := Exec.bind_eq_ok.mp hr
    have h₁ : MemoryAllocator.defineFreeMemory (255 + 1) m start size = .ok (r₁, m₁) := h₁
    cases r₁ with
    | error e => cases hr
    | ok u =>
      unfold MemoryAllocator.defineFreeMemory at h₁
      split_ifs at h₁ with hz
      · cases h₁
      · obtain ⟨_ | entry, -, h₁⟩ := Exec.bind_eq_ok.mp h₁
        · cases h₁
        · obtain ⟨stop, hstop, -⟩ := Exec.bind_eq_ok.mp h₁
          exact lt_of_getEndAddress hstop

/-- `free` on a range that is not free, whatever its bounds. -/
theorem MemoryAllocator.Valid.freed (h : m.Valid)
    (hfree : Disjoint (Set.Ico start (start + size)) m.freeBytes)
    (hr : m.free start size = .ok (r, m')) :
    m.Changed r m' fun _ => m.freeBytes ∪ Set.Ico start (start + size) := by
  cases r with
  | ok u => exact h.free (lt_of_free hr).le hfree hr
  | error e =>
    obtain ⟨⟨L, B, hinv⟩, -⟩ := h
    exact hinv.free (fun b hb hc =>
      Set.disjoint_left.mp hfree hb (hinv.freeBytes_eq ▸ hc)) hr

theorem CallRun.valid (h : CallRun m) : m.Valid := by
  induction h with
  | new => exact MemoryAllocator.valid_new
  | free start size _ hfree he ih => exact (ih.freed hfree he).valid ih
  | reserveMemory start size o _ hin he ih => exact (ih.reserveAligned hin he).valid ih
  | allocate size o _ he ih => exact (ih.allocate he).1.valid ih

/-! ## Finding a block -/

/-- Why `define_used_memory` fails once it has its entry : it needs a new entry and the pool is
full, the range is the only entry, or it goes on behind the entry. -/
theorem useRange_error {x : ℕ} {e : MemoryError}
    (h : m.useRange x start size = .ok (.error e, m')) :
    (e = .noEntry ∧ (m.Full ∨ (m.pool.previous x = none ∧ m.pool.getNextEntry x = none ∧
      m.pool.startAddress x = start ∧ m.pool.endAddress x = start + size - 1))) ∨
    (e = .invalidRequest ∧ m.pool.endAddress x = start ∧ size ≠ 1) := by
  have huse : ∀ {m₁ : MemoryAllocator}, m₁.useSize size ≠ .ok (.error e, m') := by
    intro m₁ hc
    cases (useSize_eq_ok hc).1
  unfold MemoryAllocator.useRange at h
  split_ifs at h with h1 h2 h3
  · simp only [getEndAddress, Exec.bind_eq_ok] at h
    obtain ⟨stop, ⟨sum, hsum, hstop⟩, h⟩ := h
    obtain ⟨-, rfl⟩ := checkedAdd_eq_ok.mp hsum
    obtain ⟨-, rfl⟩ := checkedSub_eq_ok.mp hstop
    split_ifs at h with h4
    · unfold MemoryAllocator.useEntry at h
      split at h
      · rename_i hprev hnext
        cases h
        exact .inl ⟨rfl, .inr ⟨hprev, hnext, h1, h4⟩⟩
      · obtain ⟨_, -, h⟩ := Exec.bind_eq_ok.mp h
        exact absurd h huse
      · obtain ⟨_, -, h⟩ := Exec.bind_eq_ok.mp h
        exact absurd h huse
    · simp only [Exec.bind_eq_ok] at h
      obtain ⟨_, -, _, -, h⟩ := h
      exact absurd h huse
  · cases h
    exact .inr ⟨rfl, h2, h3⟩
  · simp only [MemoryAllocator.useLastByte, Exec.bind_eq_ok] at h
    obtain ⟨_, -, _, -, _, -, _, -, _, -, h⟩ := h
    exact absurd h huse
  · obtain ⟨stop, -, h⟩ := Exec.bind_eq_ok.mp h
    split_ifs at h with h4
    · simp only [Exec.bind_eq_ok] at h
      obtain ⟨_, -, _, -, h⟩ := h
      exact absurd h huse
    · unfold MemoryAllocator.splitEntry at h
      split at h
      · rename_i hcreate
        cases h
        exact .inl ⟨rfl, .inl (MemoryAllocator.createMemoryEntry_eq_none.mp hcreate)⟩
      · simp only [Exec.bind_eq_ok] at h
        obtain ⟨_, -, _, -, _, -, _, -, _, -, _, -, _, -, h⟩ := h
        exact absurd h huse

/-- The free bytes, counted through the chain. -/
theorem Inv.ncard_freeBytes {L : List ℕ} {B : ℕ → List ℕ} (h : Inv m L B) :
    m.freeBytes.ncard = total (L.map m.pool.range) := by
  rw [h.freeBytes_eq, h.separated.ncard_covered]

/-- `allocate` ends, and it says that there is no memory only if it would take all the free
bytes there are, or more, or no entry has room for the block. -/
theorem allocate_complete (h : CallRun m) (hlt : ∀ b ∈ m.freeBytes, b < 2 ^ 48) (hz : 1 ≤ size)
    (ho : o < 48) :
    (m.allocate size o).Finishes ∧ ∀ m', m.allocate size o = .ok (.error .noMemory, m') →
      m.freeBytes.ncard ≤ size ∨ ∀ i < poolSize, m.pool.enabled i = true →
        ∀ a, IsLeast {b | m.pool.startAddress i ≤ b ∧ 2 ^ o ∣ b} a →
          ¬a + size - 1 ≤ m.pool.endAddress i := by
  obtain ⟨⟨L, B, hinv⟩, -⟩ := h.valid
  have hcount : m.freeBytes.ncard ≤ m.freeSize := hinv.ncard_freeBytes ▸ hinv.counted
  by_cases hf : m.freeSize ≤ size
  · have hno : m.allocate size o = .ok (.error .noMemory, m) := by
      rw [MemoryAllocator.allocate, if_neg (by omega), if_pos hf]
    rw [hno]
    exact ⟨Exec.finishes_ok _, fun _ _ => .inl (hcount.trans hf)⟩
  have hend : ∀ i ∈ L, m.pool.endAddress i < 2 ^ 48 := fun i hi => hlt _ (hinv.endAddress_mem hi)
  rw [hinv.allocate_eq hend ho (by omega) (not_le.mp hf)]
  cases hp : m.picked size o with
  | none =>
    refine ⟨Exec.finishes_ok _, fun _ _ => .inr fun i hi hen a ha hfit => ?_⟩
    have hroom := hinv.picked_eq_none hp ((hinv.shape.chain.mem_iff i).mpr ⟨hi, hen⟩)
    have hle : roundUp (m.pool.startAddress i) o ≤ a := roundUp_le ha.1.1 ha.1.2
    unfold MemoryAllocator.room at hroom
    split_ifs at hroom with hr
    omega
  | some found =>
    obtain ⟨i, a⟩ := found
    obtain ⟨hi, hroom⟩ := hinv.picked_eq_some hp
    obtain ⟨rfl, hfit⟩ := room_eq_some hroom
    obtain ⟨A, C, rfl⟩ := List.append_of_mem hi
    constructor
    · refine (hinv.useRange_finishes (fun j hj => ?_) (le_roundUp _ _) hfit (by omega)
        (by omega)).bind fun _ _ => Exec.finishes_ok _
      have := hend j hj
      omega
    · intro m' hr
      obtain ⟨⟨r₁, m₁⟩, huse, hr⟩ := Exec.bind_eq_ok.mp hr
      cases r₁ with
      | ok u => cases hr
      | error e =>
        cases hr
        rcases useRange_error huse with ⟨he, -⟩ | ⟨he, -⟩ <;> cases he

/-- Three pages were freed, and two of them at a multiple of four pages are not there. -/
theorem allocate_complete_pages : ∃ m, CallRun m ∧
    m.allocate 0x2000 14 = .ok (.error .noMemory, m) ∧ (m.allocate 0x2000 14).Finishes := by
  have h := CallRun.free (m := .new) 0x1000 0x3000 .new
    (by simp [Inv.new.freeBytes_eq, covered]) rfl
  refine ⟨_, h, rfl, (allocate_complete h (fun b hb => ?_) (by decide) (by decide)).1⟩
  have hc := @MemoryAllocator.Valid.freed .new _ 0x1000 0x3000 _ MemoryAllocator.valid_new
    (by simp [Inv.new.freeBytes_eq, covered]) rfl
  rw [hc.2, Inv.new.freeBytes_eq] at hb
  simp only [List.map_nil, covered_nil, Set.empty_union, Set.mem_Ico] at hb
  omega

/-! ## Counting the free bytes -/

namespace MemoryAllocator

/-- `free_size` is the number of bytes of the entries in use. -/
def Accounted (m : MemoryAllocator) : Prop :=
  m.freeSize = ((Finset.range poolSize).filter fun i => m.pool.enabled i = true).sum m.pool.size

/-- `free` does not add to `free_size` twice : there is no free memory yet, or the call fails
because the range is empty or no entry is left for it. -/
def CountsOnce (m : MemoryAllocator) (start size : ℕ) : Prop :=
  m.freeSize = 0 ∨ size = 0 ∨ (m.Full ∧ ¬m.Touches start size)

end MemoryAllocator

section Counting

variable {L L' : List ℕ} {B B' : ℕ → List ℕ}

theorem Inv.accounted_iff (h : Inv m L B) : m.Accounted ↔ m.freeSize = m.freeBytes.ncard := by
  have hL : (Finset.range poolSize).filter (fun i => m.pool.enabled i = true) = L.toFinset := by
    ext i
    simp [h.shape.chain.mem_iff i]
  rw [MemoryAllocator.Accounted, hL, List.sum_toFinset _ h.shape.chain.nodup, h.ncard_freeBytes,
    total, List.map_map]
  rfl

/-- What is used is taken off `free_size` once. -/
theorem freeSize_of_useRange {x : ℕ} (h : m.useRange x start size = .ok (.ok (), m')) :
    m'.freeSize + size = m.freeSize := by
  have huse : ∀ {m₁ : MemoryAllocator}, m₁.useSize size = .ok (.ok (), m') →
      m₁.freeSize = m.freeSize → m'.freeSize + size = m.freeSize := by
    intro m₁ hu hf
    obtain ⟨_, hsub, hu⟩ := Exec.bind_eq_ok.mp hu
    cases hu
    obtain ⟨hle, rfl⟩ := checkedSub_eq_ok.mp hsub
    dsimp only
    omega
  have hdel : ∀ {m₁ m₂ : MemoryAllocator}, m₁.deleteEntry x = .ok m₂ →
      m₂.freeSize = m₁.freeSize := by
    intro m₁ m₂ hd
    obtain ⟨_, -, hd⟩ := Exec.bind_eq_ok.mp hd
    cases hd
    rfl
  have hresize : ∀ {s e : ℕ} {m₁ : MemoryAllocator}, m.resizeEntry x s e = .ok m₁ →
      m₁.freeSize = m.freeSize := by
    intro s e m₁ hr
    simp only [MemoryAllocator.resizeEntry, Exec.bind_eq_ok] at hr
    obtain ⟨_, -, _, -, hr⟩ := hr
    have hf := MemoryAllocator.freeSize_of_rechain hr
    exact hf
  unfold MemoryAllocator.useRange at h
  split_ifs at h with h1 h2 h3
  · obtain ⟨stop, -, h⟩ := Exec.bind_eq_ok.mp h
    split_ifs at h with h4
    · unfold MemoryAllocator.useEntry at h
      split at h
      · cases h
      · obtain ⟨_, hd, h⟩ := Exec.bind_eq_ok.mp h
        have hf := hdel hd
        exact huse h hf
      · obtain ⟨_, hd, h⟩ := Exec.bind_eq_ok.mp h
        have hf := hdel hd
        exact huse h hf
    · simp only [Exec.bind_eq_ok] at h
      obtain ⟨_, -, _, hr, h⟩ := h
      exact huse h (hresize hr)
  · cases h
  · simp only [MemoryAllocator.useLastByte, Exec.bind_eq_ok] at h
    obtain ⟨_, -, _, -, _, -, _, -, _, hr, h⟩ := h
    have hf := MemoryAllocator.freeSize_of_rechain hr
    exact huse h hf
  · obtain ⟨stop, -, h⟩ := Exec.bind_eq_ok.mp h
    split_ifs at h with h4
    · simp only [Exec.bind_eq_ok] at h
      obtain ⟨_, -, _, hr, h⟩ := h
      exact huse h (hresize hr)
    · unfold MemoryAllocator.splitEntry at h
      split at h
      · cases h
      · simp only [Exec.bind_eq_ok] at h
        obtain ⟨_, -, _, -, _, -, _, -, _, -, m₁, hr₁, m₂, hr₂, h⟩ := h
        have hf₁ := MemoryAllocator.freeSize_of_rechain hr₁
        have hf₂ := MemoryAllocator.freeSize_of_rechain hr₂
        exact huse h (hf₂.trans hf₁)

theorem freeSize_of_reserveMemory (h : m.reserveMemory start size 0 = .ok (.ok (), m')) :
    m'.freeSize + size = m.freeSize := by
  simp only [MemoryAllocator.reserveMemory, MemoryAllocator.defineUsedMemory, if_true,
    MemoryAllocator.defineUsedRange] at h
  split_ifs at h with hz hf
  · cases h
  · cases h
  · obtain ⟨_ | x, -, h⟩ := Exec.bind_eq_ok.mp h
    · cases h
    · exact freeSize_of_useRange h

theorem freeSize_of_allocate {a : ℕ} (h : m.allocate size o = .ok (.ok a, m')) :
    m'.freeSize + size = m.freeSize ∧ size ≠ 0 ∧ m'.freeSize ≠ 0 := by
  have hloop : ∀ {n i : ℕ} {q : Option (MemoryResult ℕ × MemoryAllocator)},
      loop (m.allocateStep size o) n i = .ok q → q = some (.ok a, m') →
        m'.freeSize + size = m.freeSize := by
    intro n i q hq
    refine loop_ok (I := fun _ => True) (C := fun _ => True)
      (Q := fun q => q = some (.ok a, m') → m'.freeSize + size = m.freeSize)
      (fun _ _ _ _ _ => trivial) (fun i q _ _ hb hs => ?_) n i trivial (throughout_true ..) hq
    subst hs
    simp only [MemoryAllocator.allocateStep, Exec.bind_eq_ok] at hb
    obtain ⟨_ | b, -, hb⟩ := hb
    · simp only at hb
      split at hb <;> cases hb
    · obtain ⟨⟨r₁, m₁⟩, hu, hb⟩ := Exec.bind_eq_ok.mp hb
      cases r₁ with
      | error e => cases hb
      | ok u =>
        cases hb
        simp only [MemoryAllocator.defineUsedMemory, if_true, MemoryAllocator.defineUsedRange] at hu
        split_ifs at hu with hz hf
        · cases hu
        · cases hu
        · exact freeSize_of_useRange hu
  have hfrom : ∀ n k, m.allocateFrom size o n k = .ok (.ok a, m') →
      m'.freeSize + size = m.freeSize := by
    intro n
    induction n with
    | zero =>
      intro k hr
      cases hr
    | succ n ih =>
      intro k hr
      unfold MemoryAllocator.allocateFrom at hr
      split at hr
      · exact ih _ hr
      · split at hr
        · cases hr
        · obtain ⟨_ | q, hq, hr⟩ := Exec.bind_eq_ok.mp hr
          · exact ih _ hr
          · cases hr
            exact hloop hq rfl
  unfold MemoryAllocator.allocate at h
  split_ifs at h with hz hf
  · cases h
  · cases h
  · have := hfrom _ _ h
    exact ⟨this, hz, by omega⟩

/-- Taking a range of free bytes keeps the count right. -/
theorem Inv.accounted_of_use {D : Set ℕ} (h : Inv m L B) (h' : Inv m' L' B') (hm : m.Accounted)
    (hD : D ⊆ m.freeBytes) (hcard : D.ncard = size) (hF : m'.freeBytes = m.freeBytes \ D)
    (hfs : m'.freeSize + size = m.freeSize) : m'.Accounted := by
  have hfin : m.freeBytes.Finite := h.freeBytes_eq ▸ finite_covered _
  rw [h'.accounted_iff, hF, Set.ncard_sdiff hD (hfin.subset hD), hcard, ← h.accounted_iff.mp hm]
  omega

theorem ncard_Ico (a s : ℕ) : (Set.Ico a (a + s)).ncard = s := by
  rw [← Finset.coe_Ico, Set.ncard_coe_finset, Nat.card_Ico]
  omega

/-- The first range of all is counted once. -/
theorem freeSize_of_free_first (hf : m.freeSize = 0)
    (hr : m.free start size = .ok (.ok (), m')) : m'.freeSize = size := by
  unfold MemoryAllocator.free at hr
  rw [if_pos hf] at hr
  split at hr
  · cases hr
  · simp only [Exec.bind_eq_ok] at hr
    obtain ⟨_, -, _, -, _, -, hr⟩ := hr
    cases hr
    rfl

/-- Every other range is counted twice. -/
theorem Inv.le_freeSize_of_free (h : Inv m L B) (hf : m.freeSize ≠ 0)
    (hfree : Disjoint (Set.Ico start (start + size)) m.freeBytes)
    (hr : m.free start size = .ok (.ok (), m')) :
    m'.freeBytes.ncard + size ≤ m'.freeSize ∧ size ≠ 0 := by
  unfold MemoryAllocator.free at hr
  rw [if_neg hf] at hr
  obtain ⟨⟨r₁, m₁⟩, h₁, hr⟩ := Exec.bind_eq_ok.mp hr
  have h₁ : MemoryAllocator.defineFreeMemory (255 + 1) m start size = .ok (r₁, m₁) := h₁
  cases r₁ with
  | error e => cases hr
  | ok u =>
    obtain ⟨_, hadd, hr⟩ := Exec.bind_eq_ok.mp hr
    cases hr
    obtain ⟨-, rfl⟩ := checkedAdd_eq_ok.mp hadd
    have hz : size ≠ 0 := by
      rintro rfl
      rw [MemoryAllocator.defineFreeMemory, if_pos rfl] at h₁
      cases h₁
    obtain ⟨L', B', hinv, -⟩ := h.defineFreeMemory (fun hc => hf (h.unused hc)) hz
      (fun b hb hc => Set.disjoint_left.mp hfree hb (h.freeBytes_eq ▸ hc)) h₁
    have hcount := hinv.counted
    rw [← hinv.ncard_freeBytes] at hcount
    exact ⟨Nat.add_le_add_right hcount size, hz⟩

/-- A range that is next to no free byte needs an entry of its own. -/
theorem Inv.not_full_of_apart (h : Inv m L B) (h' : Inv m' L' B') (hz : size ≠ 0)
    (hfree : Disjoint (Set.Ico start (start + size)) m.freeBytes)
    (hF : m'.freeBytes = m.freeBytes ∪ Set.Ico start (start + size))
    (hapart : ¬m.Touches start size) : ¬m.Full := by
  intro hfull
  rw [h.freeBytes_eq] at hfree
  obtain ⟨A, C, rfl, hA, hC⟩ := h.split_at hz fun b hb hc => Set.disjoint_left.mp hfree hb hc
  have hend : ∀ i ∈ A, m.pool.endAddress i + 1 < start := by
    intro i hi
    have h1 := (hA i hi).2
    have h2 : m.pool.endAddress i + 1 ≠ start := fun hc =>
      hapart (.inl ⟨_, h.endAddress_mem (List.mem_append_left C hi), hc⟩)
    omega
  have hstart : ∀ i ∈ C, start + size < m.pool.startAddress i := by
    intro i hi
    have h1 := hC i hi
    have h2 : m.pool.startAddress i ≠ start + size := fun hc =>
      hapart (.inr (hc ▸ h.startAddress_mem (List.mem_append_right A hi)))
    omega
  -- Both lists of intervals have the same bytes, so they are equal, and one is too long.
  have hsep : Separated (A.map m.pool.range ++ [(start, start + size - 1)] ++ C.map m.pool.range) := by
    refine Separated.replace (X := []) (by simpa using h.separated)
      ⟨by simp; omega, by simp⟩ (fun r hr t ht => ?_) (fun r hr t ht => ?_)
    · obtain ⟨i, hi, rfl⟩ := List.mem_map.mp hr
      rw [List.mem_singleton.mp ht]
      exact hend i hi
    · obtain ⟨i, hi, rfl⟩ := List.mem_map.mp ht
      rw [List.mem_singleton.mp hr]
      have := hstart i hi
      simp only [MemoryEntryPool.range]
      omega
  have heq := h'.separated.eq_of_covered_eq hsep (by
    rw [← h'.freeBytes_eq, hF, h.freeBytes_eq]
    have := covered_union (A := A.map m.pool.range) (B := C.map m.pool.range) (X := [])
      (Y := [(start, start + size - 1)]) (D := Set.Ico start (start + size)) (fun b => by
        simp only [mem_covered_cons, mem_covered_nil, or_false, false_or, Set.mem_Ico]
        omega)
    simpa using this.symm)
  have hlen := congrArg List.length heq
  have hmax := h'.shape.chain.length_le
  have hall : poolSize ≤ (A ++ C).length := by
    have hsub : List.range poolSize ⊆ A ++ C := fun i hi =>
      (h.shape.chain.mem_iff i).mpr ⟨List.mem_range.mp hi, hfull i (List.mem_range.mp hi)⟩
    simpa using List.nodup_range.length_le_of_subset hsub
  simp only [List.length_map, List.length_append, List.length_cons, List.length_nil] at hlen hall
  omega

/-- `define_free_memory` fails behind its first checks only for lack of an entry. -/
theorem freeWithNext_error {again : MemoryAllocator → ℕ → ℕ → Exec (MemoryResult Unit × MemoryAllocator)}
    {x after old stop : ℕ} {processed : Bool} {next : Option ℕ} {e : MemoryError}
    (hn : ∀ c, next = some c → start < m.pool.startAddress c ∧
      (processed = false → m.pool.startAddress c ≠ m.pool.endAddress x + 1))
    (hr : m.freeWithNext again x after old start stop size processed next = .ok (.error e, m')) :
    processed = false ∧ m.Full ∧ ∀ c, next = some c → m.pool.startAddress c ≠ stop + 1 := by
  have hfinish : ∀ {m₁ : MemoryAllocator}, m₁.finishExtended x old size ≠ .ok (.error e, m') := by
    intro m₁ hc
    simp only [MemoryAllocator.finishExtended, Exec.bind_eq_ok] at hc
    obtain ⟨_, -, _, -, hc⟩ := hc
    cases hc
  have hinsert : m.insertEntry x old start stop size next = .ok (.error e, m') → m.Full := by
    intro hc
    unfold MemoryAllocator.insertEntry at hc
    split at hc
    · exact MemoryAllocator.createMemoryEntry_eq_none.mp (by assumption)
    · simp only [Exec.bind_eq_ok] at hc
      obtain ⟨_, -, _, -, _, -, _, -, _, -, hc⟩ := hc
      cases hc
  cases next with
  | none =>
    simp only [MemoryAllocator.freeWithNext] at hr
    split_ifs at hr with hp
    · exact absurd hr hfinish
    · exact ⟨by simpa using hp, hinsert hr, by simp⟩
  | some c =>
    obtain ⟨hs, hmerge⟩ := hn c rfl
    simp only [MemoryAllocator.freeWithNext, not_le.mpr hs, if_false, Exec.bind_eq_ok,
      MemoryAllocator.extendNext] at hr
    obtain ⟨⟨m₁, b⟩, ⟨_, hadd, hext⟩, m₂, hm₂, hr⟩ := hr
    obtain ⟨-, rfl⟩ := checkedAdd_eq_ok.mp hadd
    split_ifs at hext with htouch
    · obtain ⟨_, -, hext⟩ := Exec.bind_eq_ok.mp hext
      cases hext
      exact absurd hr hfinish
    · cases hext
      simp only at hr
      split_ifs at hr with hp
      · exact absurd hr hfinish
      · have hp : processed = false := by simpa using hp
        simp only [MemoryAllocator.mergeNext, Exec.bind_eq_ok] at hm₂
        obtain ⟨_, hadd, hm₂⟩ := hm₂
        obtain ⟨-, rfl⟩ := checkedAdd_eq_ok.mp hadd
        rw [if_neg (by simp [hmerge hp, hp])] at hm₂
        cases hm₂
        refine ⟨hp, hinsert hr, ?_⟩
        rintro _ ⟨⟩
        exact htouch

/-- The same for the entry the search gives. -/
theorem freeBeside_error {again : MemoryAllocator → ℕ → ℕ → Exec (MemoryResult Unit × MemoryAllocator)}
    {x stop : ℕ} {e : MemoryError}
    (hn : ∀ c, m.pool.getNextEntry x = some c → c ≠ x ∧ start < m.pool.startAddress c ∧
      m.pool.startAddress c ≠ m.pool.endAddress x + 1)
    (hr : m.freeBeside again x start stop size = .ok (.error e, m')) :
    m.Full ∧ m.pool.endAddress x + 1 ≠ start ∧
      (m.pool.previous x = none → m.pool.startAddress x ≠ stop + 1) ∧
        ∀ c, m.pool.getNextEntry x = some c → m.pool.startAddress c ≠ stop + 1 := by
  simp only [MemoryAllocator.freeBeside, Exec.bind_eq_ok] at hr
  obtain ⟨old, -, after, hafter, ⟨pool₁, b₁⟩, h₁, ⟨pool₂, b₂⟩, h₂, hr⟩ := hr
  obtain ⟨-, rfl⟩ := checkedAdd_eq_ok.mp hafter
  -- An entry that has grown is the entry of a call that does not fail.
  have hgrown : ∀ s₁ e₁ : ℕ, b₂ = true → pool₂ ≠ m.pool.withRange x s₁ e₁ := by
    rintro s₁ e₁ rfl rfl
    have hsame : ∀ c, c ≠ x → (m.pool.withRange x s₁ e₁).startAddress c = m.pool.startAddress c :=
      fun c hc => Function.update_of_ne hc _ _
    have := freeWithNext_error (fun c hc => ⟨by
      have hc := hn c hc
      simp only [hsame c hc.1]
      exact hc.2.1, by simp⟩) hr
    cases this.1
  unfold MemoryAllocator.extendEnd at h₁
  unfold MemoryAllocator.extendStart at h₂
  split_ifs at h₁ with hleft
  · obtain ⟨_, hq, h₁⟩ := Exec.bind_eq_ok.mp h₁
    obtain ⟨-, rfl⟩ := MemoryEntryPool.setRange_eq_ok hq
    cases h₁
    split_ifs at h₂ with hprev
    · obtain ⟨_, -, h₂⟩ := Exec.bind_eq_ok.mp h₂
      split_ifs at h₂ with htouch
      · obtain ⟨_, hq, h₂⟩ := Exec.bind_eq_ok.mp h₂
        obtain ⟨-, rfl⟩ := MemoryEntryPool.setRange_eq_ok hq
        cases h₂
        refine absurd ?_ (hgrown start stop rfl)
        simp [MemoryEntryPool.withRange]
      · cases h₂
        exact absurd rfl (hgrown _ _ rfl)
    · cases h₂
      exact absurd rfl (hgrown _ _ rfl)
  · cases h₁
    split_ifs at h₂ with hprev
    · obtain ⟨_, hadd, h₂⟩ := Exec.bind_eq_ok.mp h₂
      obtain ⟨-, rfl⟩ := checkedAdd_eq_ok.mp hadd
      split_ifs at h₂ with htouch
      · obtain ⟨_, hq, h₂⟩ := Exec.bind_eq_ok.mp h₂
        obtain ⟨-, rfl⟩ := MemoryEntryPool.setRange_eq_ok hq
        cases h₂
        exact absurd rfl (hgrown _ _ rfl)
      · cases h₂
        obtain ⟨-, hfull, hc⟩ := freeWithNext_error (fun c hc => ⟨(hn c hc).2.1,
          fun _ => (hn c hc).2.2⟩) hr
        exact ⟨hfull, hleft, fun _ => htouch, hc⟩
    · cases h₂
      obtain ⟨-, hfull, hc⟩ := freeWithNext_error (fun c hc => ⟨(hn c hc).2.1,
        fun _ => (hn c hc).2.2⟩) hr
      exact ⟨hfull, hleft, fun h => absurd h hprev, hc⟩

/-- `free` fails on a range that is not free only if the range is empty, or it is next to no
free byte and the pool is full. -/
theorem Inv.free_error {e : MemoryError} (h : Inv m L B) (hf : m.freeSize ≠ 0)
    (hfree : Disjoint (Set.Ico start (start + size)) m.freeBytes)
    (hr : m.free start size = .ok (.error e, m')) :
    size = 0 ∨ (m.Full ∧ ¬m.Touches start size) := by
  by_cases hz : size = 0
  · exact .inl hz
  right
  unfold MemoryAllocator.free at hr
  rw [if_neg hf] at hr
  obtain ⟨⟨r₁, m₁⟩, h₁, hr⟩ := Exec.bind_eq_ok.mp hr
  have h₁ : MemoryAllocator.defineFreeMemory (255 + 1) m start size = .ok (r₁, m₁) := h₁
  cases r₁ with
  | ok u =>
    obtain ⟨_, -, hr⟩ := Exec.bind_eq_ok.mp hr
    cases hr
  | error e₁ =>
    clear hr
    have hfree' := hfree
    rw [h.freeBytes_eq] at hfree'
    obtain ⟨A, x, C, rfl, heq, hside⟩ := h.defineFreeMemory_eq (fun hc => hf (h.unused hc)) hz
      (fun b hb hc => Set.disjoint_left.mp hfree' hb hc) 255
    rw [heq] at h₁
    obtain ⟨_, hstop, h₁⟩ := Exec.bind_eq_ok.mp h₁
    obtain ⟨_, hsum, hsub⟩ := Exec.bind_eq_ok.mp hstop
    obtain ⟨-, rfl⟩ := checkedAdd_eq_ok.mp hsum
    obtain ⟨-, rfl⟩ := checkedSub_eq_ok.mp hsub
    have hsep := h.separated
    simp only [List.map_append, List.map_cons] at hsep
    have hxC := separated_cons.mp (separated_append.mp hsep).2.1
    have hgap : ∀ c ∈ C, m.pool.endAddress x + 1 < m.pool.startAddress c := fun c hc =>
      hxC.2.2 _ (List.mem_map_of_mem hc)
    have hxle : m.pool.startAddress x ≤ m.pool.endAddress x := hxC.1
    have hnodup := List.nodup_cons.mp (List.nodup_append.mp h.shape.chain.nodup).2.1
    obtain ⟨hfull, hleft, hfirst, hnext⟩ := freeBeside_error (fun c hc => by
      rw [h.shape.chain.getNextEntry] at hc
      have hmem := List.mem_of_head? hc
      have hc := hgap c hmem
      refine ⟨fun hcx => hnodup.1 (hcx ▸ hmem), ?_, by omega⟩
      rcases hside with ⟨-, hC⟩ | ⟨-, hx⟩
      · have := hC c hmem
        omega
      · omega) h₁
    refine ⟨hfull, ?_⟩
    rw [h.shape.chain.getNextEntry] at hnext
    rw [h.shape.chain.previous] at hfirst
    rw [h.touches_iff hside]
    rintro (hc | ⟨c, C', rfl, hc⟩ | ⟨rfl, hc⟩)
    · exact hleft hc
    · exact hnext c rfl (by omega)
    · exact hfirst rfl (by omega)

theorem Inv.accounted_of_reserveMemory {m' : MemoryAllocator} (h : Inv m L B) (h' : Inv m' L' B')
    (hm : m.Accounted) (hin : ∃ i ∈ m.chain, reservedBytes start size o ⊆
      Set.Icc (m.pool.startAddress i) (m.pool.endAddress i))
    (hlt : ∀ b ∈ m.freeBytes, b < 2 ^ 64)
    (hF : m'.freeBytes = m.freeBytes \ reservedBytes start size o)
    (hr : m.reserveMemory start size o = .ok (.ok (), m')) : m'.Accounted := by
  rcases reserveMemory_eq_ok hr with ⟨⟨e, he⟩, -⟩ | ⟨hz, a, s, halign, hr⟩
  · cases he
  · obtain ⟨i, hi, hsub⟩ := hin
    have hbytes : reservedBytes start size o ⊆ m.freeBytes := fun b hb =>
      ⟨_, List.mem_map_of_mem hi, hsub hb⟩
    have hblock : reservedBytes start size o = Set.Ico a (a + s) := by
      rcases halign with ⟨rfl, rfl, rfl⟩ | halign
      · exact reservedBytes_zero _ _
      · have hstart : start ∈ m.freeBytes := hbytes (Ico_subset_reservedBytes _ _ _
          (Set.mem_Ico.mpr ⟨le_rfl, by omega⟩))
        obtain ⟨rfl, rfl⟩ := alignAddressAndSize_eq_ok (hlt start hstart) hz halign
        exact reservedBytes_eq hz
    rw [hblock] at hbytes hF
    exact h.accounted_of_use h' hm hbytes (ncard_Ico a s) hF (freeSize_of_reserveMemory hr)

/-- After a `free` the count is right exactly if the range was not counted twice. -/
theorem Inv.accounted_free_iff (h : Inv m L B) (hm : m.Accounted) (hv : m.Valid)
    (hfree : Disjoint (Set.Ico start (start + size)) m.freeBytes)
    (hr : m.free start size = .ok (r, m')) :
    m'.Accounted ↔ m.CountsOnce start size := by
  have hc := hv.freed hfree hr
  cases r with
  | error e =>
    have hsame : m' = m := hc
    subst hsame
    refine iff_of_true hm ?_
    by_cases hf : m'.freeSize = 0
    · exact .inl hf
    · exact .inr (h.free_error hf hfree hr)
  | ok u =>
    obtain ⟨⟨⟨L', B', h'⟩, -⟩, hF⟩ := hc
    rw [h'.accounted_iff]
    by_cases hf : m.freeSize = 0
    · refine iff_of_true ?_ (.inl hf)
      have hempty : m.freeBytes.ncard = 0 := by
        rw [← h.accounted_iff.mp hm]
        exact hf
      have hnone : m.freeBytes = ∅ :=
        (Set.ncard_eq_zero (h.freeBytes_eq ▸ finite_covered _)).mp hempty
      rw [freeSize_of_free_first hf hr, hF, hnone, Set.empty_union, ncard_Ico]
    · obtain ⟨hle, hz⟩ := h.le_freeSize_of_free hf hfree hr
      refine iff_of_false (by omega) ?_
      rintro (hc | hc | ⟨hfull, hapart⟩)
      · exact hf hc
      · exact hz hc
      · exact h.not_full_of_apart h' hz hfree hF hapart hfull

end Counting

/-- A run of calls whose `free` calls count no range twice. -/
inductive CountedRun : MemoryAllocator → Prop
  | new : CountedRun .new
  | free {m m' : MemoryAllocator} {r : MemoryResult Unit} (start size : ℕ) (h : CountedRun m)
      (hfree : Disjoint (Set.Ico start (start + size)) m.freeBytes)
      (honce : m.CountsOnce start size) (he : m.free start size = .ok (r, m')) : CountedRun m'
  | reserveMemory {m m' : MemoryAllocator} {r : MemoryResult Unit} (start size o : ℕ)
      (h : CountedRun m) (hin : ∃ i ∈ m.chain, reservedBytes start size o ⊆
        Set.Icc (m.pool.startAddress i) (m.pool.endAddress i))
      (he : m.reserveMemory start size o = .ok (r, m')) : CountedRun m'
  | allocate {m m' : MemoryAllocator} {r : MemoryResult ℕ} (size o : ℕ) (h : CountedRun m)
      (he : m.allocate size o = .ok (r, m')) : CountedRun m'

theorem CountedRun.callRun (h : CountedRun m) : CallRun m := by
  induction h with
  | new => exact .new
  | free start size _ hfree _ he ih => exact .free start size ih hfree he
  | reserveMemory start size o _ hin he ih => exact .reserveMemory start size o ih hin he
  | allocate size o _ he ih => exact .allocate size o ih he

theorem CountedRun.accounted (h : CountedRun m) : m.Accounted := by
  induction h with
  | new => rfl
  | free start size h hfree honce he ih =>
    have hv := h.callRun.valid
    obtain ⟨⟨L, B, hinv⟩, -⟩ := id hv
    exact (hinv.accounted_free_iff ih hv hfree he).mpr honce
  | @reserveMemory m m' r start size o h hin he ih =>
    have hv := h.callRun.valid
    have hc := hv.reserveAligned hin he
    obtain ⟨⟨L, B, hinv⟩, hlt⟩ := hv
    cases r with
    | error e =>
      have hsame : m' = m := hc
      exact hsame ▸ ih
    | ok u =>
      obtain ⟨⟨⟨L', B', hinv'⟩, -⟩, hF⟩ := hc
      exact hinv.accounted_of_reserveMemory hinv' ih hin hlt hF he
  | @allocate m m' r size o h he ih =>
    have hv := h.callRun.valid
    obtain ⟨hc, ha⟩ := hv.allocate he
    obtain ⟨⟨L, B, hinv⟩, -⟩ := hv
    cases r with
    | error e =>
      have hsame : m' = m := hc
      exact hsame ▸ ih
    | ok a =>
      obtain ⟨⟨⟨L', B', hinv'⟩, -⟩, hF⟩ := hc
      exact hinv.accounted_of_use hinv' ih (ha a rfl).2 (ncard_Ico a size) hF
        (freeSize_of_allocate he).1

/-- In a run that counts no range twice `free_size` is the number of free bytes. One more `free`
keeps it so exactly if it counts its range once, and giving back a block that was just allocated
never restores `free_size`. -/
theorem countedRun_accounted (h : CountedRun m) :
    (m.Accounted ∧ m.freeSize = m.freeBytes.ncard) ∧
    (∀ start size r m', Disjoint (Set.Ico start (start + size)) m.freeBytes →
      m.free start size = .ok (r, m') → (m'.Accounted ↔ m.CountsOnce start size)) ∧
    ∀ size o a m₁ r m₂, m.allocate size o = .ok (.ok a, m₁) → m₁.free a size = .ok (r, m₂) →
      m₂.freeSize ≠ m.freeSize := by
  have hv := h.callRun.valid
  have hm := h.accounted
  obtain ⟨⟨L, B, hinv⟩, -⟩ := id hv
  have hcount := hinv.accounted_iff.mp hm
  refine ⟨⟨hm, hcount⟩, fun start size r m' hfree he => hinv.accounted_free_iff hm hv hfree he, ?_⟩
  intro size o a m₁ r m₂ he hfree
  obtain ⟨hfs, hz, hne⟩ := freeSize_of_allocate he
  obtain ⟨⟨hv₁, hF₁⟩, ha⟩ := hv.allocate he
  obtain ⟨⟨L₁, B₁, hinv₁⟩, -⟩ := id hv₁
  have hdisj : Disjoint (Set.Ico a (a + size)) m₁.freeBytes := by
    rw [hF₁]
    exact Set.disjoint_sdiff_right
  have hc := hv₁.freed hdisj hfree
  cases r with
  | error e =>
    have hsame : m₂ = m₁ := hc
    rw [hsame]
    omega
  | ok u =>
    have hback : m₂.freeBytes = m.freeBytes := by
      rw [hc.2, hF₁]
      exact Set.sdiff_union_of_subset (ha a rfl).2
    have := (hinv₁.le_freeSize_of_free hne hdisj hfree).1
    rw [hback] at this
    omega

/-- One range is freed and one page allocated. -/
theorem countedRun_accounted_page : ∃ m, CountedRun m ∧ m.Accounted ∧ m.freeSize = 0x2000 := by
  have h₁ := CountedRun.free (m := .new) 0x1000 0x3000 .new
    (by simp [Inv.new.freeBytes_eq, covered]) (.inl rfl) rfl
  have h₂ := CountedRun.allocate 0x1000 12 h₁ rfl
  exact ⟨_, h₂, (countedRun_accounted h₂).1.1, rfl⟩

/-- A second range is freed, and its page is counted twice. -/
theorem free_counts_twice : ∃ m, CallRun m ∧ ¬m.Accounted := by
  have h₁ := CallRun.free (m := .new) 0x1000 0x3000 .new
    (by simp [Inv.new.freeBytes_eq, covered]) rfl
  have hc := @MemoryAllocator.Valid.freed .new _ 0x1000 0x3000 _ MemoryAllocator.valid_new
    (by simp [Inv.new.freeBytes_eq, covered]) rfl
  have h₂ := CallRun.free 0x10000 0x1000 h₁ (by
    rw [hc.2, Inv.new.freeBytes_eq, List.map_nil, covered_nil, Set.empty_union]
    exact Set.disjoint_left.mpr fun b hb hb' => by
      simp only [Set.mem_Ico] at hb hb'
      omega) rfl
  refine ⟨_, h₂, ?_⟩
  unfold MemoryAllocator.Accounted
  decide

end

end MiniVisor
