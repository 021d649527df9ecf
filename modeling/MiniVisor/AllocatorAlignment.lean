import MiniVisor.AllocatorLegal
import MiniVisor.AllocatorLock
import MiniVisor.LaunchCpu
import MiniVisor.TrapFrame

/-!
# Aligned stacks

`launch_cpu` asks for its stack with the alignment order 0, and gets the start of a free entry. The
stack pointer of the new CPU has to be a multiple of 16, or the first exception faults when it
pushes the registers. Nothing in the allocator sees to that : it holds as long as every size that
anybody asks for is a multiple of 16 (`stack_aligned_iff`), which is not so for the allocations of
the heap. -/

namespace MiniVisor

open Machine

/-- The bytes of `F` are whole words of `k` bytes. -/
def Whole (k : ℕ) (F : Set ℕ) : Prop :=
  ∀ b c, b / k = c / k → b ∈ F → c ∈ F

/-- Calls after boot, for blocks with sizes in `S`, with the blocks in use. The free memory that
boot leaves is whole words. -/
inductive SizedRun (k : ℕ) (S : Set ℕ) : MemoryAllocator × List (ℕ × ℕ) → Prop
  | boot {m : MemoryAllocator} (h : CallRun m) (hwhole : Whole k m.freeBytes) : SizedRun k S (m, [])
  | call {x y : MemoryAllocator × List (ℕ × ℕ)} (h : SizedRun k S x) (hc : BlockCall x y)
      (hsizes : ∀ b ∈ y.2, b.2 ∈ S) : SizedRun k S y

/-! ## Where a block starts -/

section

variable {m m' : MemoryAllocator} {size o a i : ℕ}

/-- `allocate` takes the first aligned address of an entry. -/
theorem CallRun.allocate_room (h : CallRun m) (he : m.allocate size o = .ok (.ok a, m')) :
    ∃ i ∈ m.chain, MemoryAllocator.room m.pool size o i = some a := by
  obtain ⟨⟨L, B, hinv⟩, -⟩ := h.valid
  have hz : size ≠ 0 := by
    rintro rfl
    cases he
  have hf : size < m.freeSize := by
    by_contra hf
    rw [MemoryAllocator.allocate, if_neg hz, if_pos (not_lt.mp hf)] at he
    cases he
  rw [hinv.allocate_eq_found (fun i hi => h.lt _ (hinv.endAddress_mem hi)) hz hf] at he
  cases hfound : m.found size o with
  | none =>
    rw [hfound] at he
    cases he
  | some x =>
    rw [hfound] at he
    obtain ⟨⟨i, a'⟩, rfl, htake⟩ := Exec.bind_eq_ok.mp he
    obtain ⟨⟨r, m₁⟩, -, htake⟩ := Exec.bind_eq_ok.mp htake
    have ha : a' = a := by
      cases r with
      | error e => cases htake
      | ok u =>
        cases htake
        rfl
    obtain ⟨j, hj, hvisit⟩ := List.exists_of_findSome?_eq_some hfound
    rw [MemoryAllocator.visit] at hvisit
    split_ifs at hvisit with hover
    · cases hvisit
    · obtain ⟨q, hplace, hq⟩ := Option.map_eq_some_iff.mp hvisit
      obtain ⟨b, hroom, hb⟩ := Option.map_eq_some_iff.mp hplace
      cases hb
      cases hq
      refine ⟨_, ?_, ha ▸ hroom⟩
      rw [hinv.chain_eq]
      exact hinv.mem_of_scanned hj

/-- The byte before an entry is not free. -/
theorem MemoryAllocator.Chained.not_mem_before (h : m.Chained) (hi : i ∈ m.chain) {b : ℕ}
    (hb : b + 1 = m.pool.startAddress i) : b ∉ m.freeBytes := by
  rintro ⟨r, hr, hle, hge⟩
  obtain ⟨j, hj, rfl⟩ := List.mem_map.mp hr
  simp only [MemoryEntryPool.range] at hle hge
  have hni := h.nonempty i hi
  obtain ⟨A, C, hsplit⟩ := List.append_of_mem hi
  have hsorted := h.sorted
  rw [hsplit, List.pairwise_append] at hsorted
  rw [hsplit, List.mem_append, List.mem_cons] at hj
  obtain hA | rfl | hC := hj
  · have := hsorted.2.2 j hA i List.mem_cons_self
    omega
  · omega
  · have := (List.pairwise_cons.mp hsorted.2.1).1 j hC
    omega

theorem MemoryAllocator.Chained.start_mem (h : m.Chained) (hi : i ∈ m.chain) :
    m.pool.startAddress i ∈ m.freeBytes :=
  ⟨_, List.mem_map_of_mem hi, le_rfl, h.nonempty i hi⟩

end

/-! ## Whole words -/

section

variable {k a n : ℕ} {F : Set ℕ}

theorem Whole.union {G : Set ℕ} (hF : Whole k F) (hG : Whole k G) : Whole k (F ∪ G) := by
  rintro b c hbc (hb | hb)
  · exact .inl (hF b c hbc hb)
  · exact .inr (hG b c hbc hb)

theorem Whole.diff {G : Set ℕ} (hF : Whole k F) (hG : Whole k G) : Whole k (F \ G) :=
  fun b c hbc hb => ⟨hF b c hbc hb.1, fun hc => hb.2 (hG c b hbc.symm hc)⟩

/-- A range of whole words. -/
theorem whole_Ico (hk : 0 < k) (ha : k ∣ a) (hn : k ∣ n) : Whole k (Set.Ico a (a + n)) := by
  obtain ⟨x, rfl⟩ := ha
  obtain ⟨y, rfl⟩ := hn
  have hmem : ∀ b, b ∈ Set.Ico (k * x) (k * x + k * y) ↔ x ≤ b / k ∧ b / k < x + y := by
    intro b
    rw [Set.mem_Ico, ← Nat.mul_add, Nat.le_div_iff_mul_le hk, Nat.div_lt_iff_lt_mul hk, Nat.mul_comm x,
      Nat.mul_comm (x + y)]
  intro b c hbc hb
  rw [hmem, ← hbc]
  exact (hmem b).mp hb

/-- Free memory of whole words starts at the start of a word. -/
theorem Whole.dvd_start (h : Whole k F) (hk : 0 < k) (ha : a ∈ F)
    (hbefore : ∀ b, b + 1 = a → b ∉ F) : k ∣ a := by
  by_contra hdvd
  have hpos : 0 < a % k := Nat.pos_of_ne_zero fun hz => hdvd (Nat.dvd_of_mod_eq_zero hz)
  have hdiv := Nat.div_add_mod a k
  have hlt := Nat.mod_lt a hk
  have hsame : a / k = (a - 1) / k := by
    have : a - 1 = k * (a / k) + (a % k - 1) := by omega
    rw [this, Nat.mul_add_div hk, Nat.div_eq_of_lt (by omega : a % k - 1 < k), Nat.add_zero]
  exact hbefore (a - 1) (by omega) (h a (a - 1) hsame ha)

end

/-! ## Aligned blocks -/

section

variable {j : ℕ} {S : Set ℕ} {x y : MemoryAllocator × List (ℕ × ℕ)} {m m' : MemoryAllocator} {size o a : ℕ}

/-- The first multiple of `2 ^ o` behind a multiple of `2 ^ j`. -/
theorem dvd_roundUp_of_dvd {s : ℕ} (hs : 2 ^ j ∣ s) : 2 ^ j ∣ roundUp s o := by
  obtain hle | hle := le_total o j
  · obtain ⟨c, rfl⟩ := (Nat.pow_dvd_pow 2 hle).trans hs
    have heq : roundUp (2 ^ o * c) o = 2 ^ o * c := by
      have := roundUp_add 0 (Nat.dvd_mul_right (2 ^ o) c)
      rwa [roundUp_zero_left, Nat.zero_add] at this
    rwa [heq]
  · exact (Nat.pow_dvd_pow 2 hle).trans (dvd_roundUp s o)

theorem CallRun.allocate_dvd (h : CallRun m) (hwhole : Whole (2 ^ j) m.freeBytes)
    (he : m.allocate size o = .ok (.ok a, m')) : 2 ^ j ∣ a := by
  obtain ⟨i, hi, hroom⟩ := h.allocate_room he
  obtain ⟨rfl, -⟩ := room_eq_some hroom
  have hc := h.valid.chained
  exact dvd_roundUp_of_dvd (hwhole.dvd_start (Nat.two_pow_pos j) (hc.start_mem hi)
    fun b hb => hc.not_mem_before hi hb)

/-- What all calls keep. -/
theorem BlockCall.callRun (hc : BlockCall x y) (h : CallRun x.1) (hapart : BlocksApart x.1.freeBytes x.2) :
    CallRun y.1 ∧ BlocksApart y.1.freeBytes y.2 := by
  cases hc with
  | @free m m' live r start size hlive hsize htop he =>
    have hdisj : Disjoint (Set.Ico start (start + size)) m.freeBytes := hapart.2 _ hlive
    exact ⟨h.free start size hdisj he, hapart.free (h.valid.freed hdisj he)⟩
  | @allocate m m' live r size o he =>
    obtain ⟨hch, hsub⟩ := h.valid.allocate he
    exact ⟨h.allocate size o he, hapart.use (fun a => (a, size)) hch fun a hr => (hsub a hr).2⟩

theorem SizedRun.callRun {k : ℕ} (h : SizedRun k S x) : CallRun x.1 ∧ BlocksApart x.1.freeBytes x.2 := by
  induction h with
  | boot h hwhole => exact ⟨h, List.Pairwise.nil, by simp⟩
  | call _ hc _ ih => exact hc.callRun ih.1 ih.2

/-- What calls with sizes that are multiples of `2 ^ j` keep. -/
structure AlignedBlocks (j : ℕ) (x : MemoryAllocator × List (ℕ × ℕ)) : Prop where
  whole : Whole (2 ^ j) x.1.freeBytes
  blocks : ∀ b ∈ x.2, 2 ^ j ∣ b.1 ∧ 2 ^ j ∣ b.2

theorem AlignedBlocks.call (h : AlignedBlocks j x) (hrun : CallRun x.1)
    (hapart : BlocksApart x.1.freeBytes x.2)
    (hc : BlockCall x y) (hsizes : ∀ b ∈ y.2, 2 ^ j ∣ b.2) : AlignedBlocks j y := by
  obtain ⟨hwhole, hblocks⟩ := h
  cases hc with
  | @free m m' live r start size hlive hsize htop he =>
    obtain ⟨hstart, hdvd⟩ := hblocks _ hlive
    have hch := hrun.valid.freed (hapart.2 _ hlive) he
    cases r with
    | error e => exact ⟨(show m' = m from hch) ▸ hwhole, hblocks⟩
    | ok u =>
      exact ⟨hch.2 ▸ hwhole.union (whole_Ico (Nat.two_pow_pos j) hstart hdvd),
        fun b hb => hblocks b (List.mem_of_mem_filter hb)⟩
  | @allocate m m' live r size o he =>
    have hch := (hrun.valid.allocate he).1
    cases r with
    | error e => exact ⟨(show m' = m from hch) ▸ hwhole, hblocks⟩
    | ok a =>
      have ha := hrun.allocate_dvd hwhole he
      have hsize := hsizes (a, size) List.mem_cons_self
      refine ⟨hch.2 ▸ hwhole.diff (whole_Ico (Nat.two_pow_pos j) ha hsize), fun b hb => ?_⟩
      rcases List.mem_cons.mp hb with rfl | hmem
      · exact ⟨ha, hsize⟩
      · exact hblocks b hmem

theorem SizedRun.aligned (hS : ∀ n ∈ S, 2 ^ j ∣ n) (h : SizedRun (2 ^ j) S x) : AlignedBlocks j x := by
  induction h with
  | boot h hwhole => exact ⟨hwhole, by simp⟩
  | call h hc hsizes ih =>
    exact ih.call h.callRun.1 h.callRun.2 hc fun b hb => hS _ (hsizes b hb)

end

/-! ## One free interval -/

section

variable {m : MemoryAllocator} {L : List ℕ} {B : ℕ → List ℕ} {s e size : ℕ}

/-- An interval is one entry. -/
theorem Inv.eq_singleton (h : Inv m L B) (hF : m.freeBytes = Set.Ico s e) (hlt : s < e) :
    ∃ i, L = [i] ∧ m.pool.startAddress i = s ∧ m.pool.endAddress i + 1 = e := by
  have hmem : ∀ b, b ∈ m.freeBytes ↔ s ≤ b ∧ b < e := fun b => by rw [hF, Set.mem_Ico]
  have hc := h.chained
  have hstart : ∀ i ∈ L, m.pool.startAddress i = s := by
    intro i hi
    have hi' : i ∈ m.chain := h.chain_eq ▸ hi
    obtain ⟨hle, hlt'⟩ := (hmem _).mp (hc.start_mem hi')
    by_contra hne
    exact hc.not_mem_before hi' (by omega : m.pool.startAddress i - 1 + 1 = _) ((hmem _).mpr (by omega))
  cases L with
  | nil =>
    have := (hmem s).mpr ⟨le_rfl, hlt⟩
    rw [h.freeBytes_eq] at this
    simp at this
  | cons i L =>
    have hsorted := List.pairwise_cons.mp (List.pairwise_map.mp h.separated.2)
    obtain rfl : L = [] := by
      cases L with
      | nil => rfl
      | cons c L =>
        have hlt' := hsorted.1 c List.mem_cons_self
        simp only [MemoryEntryPool.range] at hlt'
        have hi := h.separated.1 _ (List.mem_map_of_mem (List.mem_cons_self (a := i) (l := c :: L)))
        simp only [MemoryEntryPool.range] at hi
        have h₁ := hstart i List.mem_cons_self
        have h₂ := hstart c (List.mem_cons_of_mem _ List.mem_cons_self)
        omega
    refine ⟨i, rfl, hstart i List.mem_cons_self, ?_⟩
    obtain ⟨r, hr, hle, hge⟩ : e - 1 ∈ covered ([i].map m.pool.range) :=
      h.freeBytes_eq ▸ (hmem _).mpr (by omega)
    obtain rfl : r = m.pool.range i := by simpa using hr
    have := ((hmem _).mp (h.endAddress_mem List.mem_cons_self)).2
    simp only [MemoryEntryPool.range] at hge
    omega

/-- A block is cut from its start. -/
theorem CallRun.allocate_interval (h : CallRun m) (hF : m.freeBytes = Set.Ico s e) (he : e ≤ 2 ^ 48)
    (hz : size ≠ 0) (hfit : s + size + 1 < e) : ∃ m', m.allocate size 0 = .ok (.ok s, m') := by
  obtain ⟨⟨L, B, hinv⟩, -⟩ := h.valid
  obtain ⟨i, rfl, hs, hend⟩ := hinv.eq_singleton hF (by omega)
  have hcounted := hinv.counted
  simp only [List.map_cons, List.map_nil, total, List.sum_cons, List.sum_nil,
    MemoryEntryPool.range] at hcounted
  have hf : size < m.freeSize := by omega
  have hi : i ∈ [i] := List.mem_cons_self
  rw [hinv.allocate_eq (fun x hx => by rw [List.mem_singleton.mp hx]; omega) (by decide) hz hf]
  cases hp : m.picked size 0 with
  | none =>
    have hroom := hinv.picked_eq_none hp hi
    rw [MemoryAllocator.room, roundUp_zero_right, if_pos (by omega)] at hroom
    cases hroom
  | some found =>
    obtain ⟨x, a⟩ := found
    obtain ⟨hx, hroom⟩ := hinv.picked_eq_some hp
    obtain rfl := List.mem_singleton.mp hx
    obtain ⟨rfl, -⟩ := room_eq_some hroom
    rw [roundUp_zero_right, hs]
    obtain ⟨⟨r, m'⟩, huse⟩ := Inv.useRange_returns (A := []) (C := []) hinv
      (fun y hy => by rw [List.mem_singleton.mp hy]; omega) hs.le (by omega) hz hf.le
      (.inl ⟨by omega, by omega⟩)
    refine ⟨m', ?_⟩
    rw [MemoryAllocator.take, huse]
    cases r with
    | ok u => rfl
    | error err =>
      obtain ⟨-, hfull | ⟨-, -, -, hall⟩⟩ | ⟨-, hone, -⟩ := useRange_error huse
      · have h₀ := (hinv.shape.chain.mem_iff 0).mpr ⟨by decide, hfull 0 (by decide)⟩
        have h₁ := (hinv.shape.chain.mem_iff 1).mpr ⟨by decide, hfull 1 (by decide)⟩
        rw [List.mem_singleton] at h₀ h₁
        omega
      · omega
      · omega

end

/-! ## The first exception -/

/-- The frame is pushed exactly if the stack pointer is aligned. -/
theorem run_exceptionEntry_iff {c : Core} (exitAddress : BitVec 64) (h : 256 ≤ c.sp.toNat) :
    (∃ c', c.run (exceptionEntry exitAddress) = .ok c') ↔ 16 ∣ c.sp.toNat := by
  constructor
  · rintro ⟨c', hrun⟩
    rw [exceptionEntry, Core.run, Core.step, Exec.ok_bind, Core.run] at hrun
    obtain ⟨c₁, hstp, -⟩ := Exec.bind_eq_ok.mp hrun
    obtain ⟨_, hassert, -⟩ := Exec.bind_eq_ok.mp hstp
    have haligned := assert_eq_ok.mp hassert
    dsimp only at haligned
    rw [BitVec.toNat_sub_of_le (by rw [BitVec.le_def]; exact h)] at haligned
    have : (256#64).toNat = 256 := rfl
    omega
  · intro hdvd
    obtain ⟨c₁, hrun, -⟩ := run_exceptionEntry exitAddress (Nat.mod_eq_zero_of_dvd hdvd) h
    exact ⟨c₁, hrun⟩

section

variable {S : Set ℕ}

/-- A block whose size is not a multiple of 16, and a stack behind it. -/
theorem exists_stack_behind {n : ℕ} (hn : n ∈ S) (hz : n ≠ 0) (hle : n ≤ 2 ^ 47) :
    ∃ x m', SizedRun 16 S x ∧ x.1.allocate stackSize 0 = .ok (.ok n, m') := by
  obtain ⟨m, hfree⟩ := @free_new_returns 0 (2 ^ 48) (by decide) (by decide)
  have hnew : MemoryAllocator.new.freeBytes = ∅ := by simp [Inv.new.freeBytes_eq, covered]
  have hdisj : Disjoint (Set.Ico 0 (0 + 2 ^ 48)) MemoryAllocator.new.freeBytes := by
    rw [hnew]
    exact Set.disjoint_empty _
  have hm : CallRun m := .free 0 (2 ^ 48) .new hdisj hfree
  have hF : m.freeBytes = Set.Ico 0 (2 ^ 48) := by
    rw [(MemoryAllocator.valid_new.freed hdisj hfree).2, hnew, Set.empty_union, Nat.zero_add]
  obtain ⟨m₁, he⟩ := hm.allocate_interval hF le_rfl hz (by omega)
  have hF₁ : m₁.freeBytes = Set.Ico n (2 ^ 48) := by
    rw [(hm.valid.allocate he).1.2, hF]
    ext b
    simp only [Set.mem_sdiff, Set.mem_Ico]
    omega
  obtain ⟨m', hstack⟩ := (hm.allocate n 0 he).allocate_interval hF₁ le_rfl (show stackSize ≠ 0 by decide)
    (show n + 0x10000 + 1 < 2 ^ 48 by omega)
  have hwhole : Whole 16 m.freeBytes := by
    rw [hF, ← Nat.zero_add (2 ^ 48)]
    exact whole_Ico (by decide : 0 < 16) (Nat.dvd_zero 16) (by decide : 16 ∣ 2 ^ 48)
  refine ⟨_, m', (SizedRun.boot hm hwhole).call (.allocate n 0 he) ?_, hstack⟩
  intro b hb
  rw [blocksAfterUse, List.mem_singleton] at hb
  exact hb ▸ hn

/-- Every CPU that gets its stack in a run can take an exception, exactly if all sizes that are
asked for in runs are multiples of 16. -/
theorem stack_aligned_iff (exitAddress : BitVec 64) (hS : ∀ n ∈ S, n ≤ 2 ^ 47) :
    (∀ x a m', SizedRun 16 S x → x.1.allocate stackSize 0 = .ok (.ok a, m') → ∀ c : Core,
      c.sp = BitVec.ofNat 64 (a + stackSize) → ∃ c', c.run (exceptionEntry exitAddress) = .ok c') ↔
        ∀ n ∈ S, 16 ∣ n := by
  have hsp : ∀ x a m', SizedRun 16 S x → x.1.allocate stackSize 0 = .ok (.ok a, m') → ∀ c : Core,
      c.sp = BitVec.ofNat 64 (a + stackSize) →
        ((∃ c', c.run (exceptionEntry exitAddress) = .ok c') ↔ 16 ∣ a) := by
    intro x a m' hx he c hc
    have htop := hx.callRun.1.stack_lt he
    have hnat : c.sp.toNat = a + stackSize := by rw [hc, BitVec.toNat_ofNat, Nat.mod_eq_of_lt htop]
    have hsize : stackSize = 0x10000 := rfl
    rw [run_exceptionEntry_iff exitAddress (by omega), hnat]
    exact (Nat.dvd_add_iff_left (⟨0x1000, rfl⟩ : 16 ∣ stackSize)).symm
  constructor
  · intro h n hn
    by_contra hdvd
    obtain ⟨x, m', hx, he⟩ := exists_stack_behind hn (fun hz => hdvd (hz ▸ Nat.dvd_zero 16)) (hS n hn)
    obtain ⟨c, hc⟩ : ∃ c : Core, c.sp = BitVec.ofNat 64 (n + stackSize) :=
      ⟨⟨fun _ => 0#64, _, ⟨fun _ => 0#8, []⟩⟩, rfl⟩
    exact hdvd ((hsp x n m' hx he c hc).mp (h x n m' hx he c hc))
  · intro h x a m' hx he c hc
    have hwhole := (SizedRun.aligned (j := 4) h hx).whole
    exact (hsp x a m' hx he c hc).mpr (hx.callRun.1.allocate_dvd hwhole he)

end

/-- Stacks only. -/
theorem stack_aligned_iff_stacks : ∃ x a m', SizedRun 16 {stackSize} x ∧
    x.1.allocate stackSize 0 = .ok (.ok a, m') ∧ ∃ c' : Core,
      Core.run ⟨fun _ => 0#64, BitVec.ofNat 64 (a + stackSize), ⟨fun _ => 0#8, []⟩⟩ (exceptionEntry 0#64) =
        .ok c' := by
  obtain ⟨x, m', hx, he⟩ := exists_stack_behind (S := {stackSize}) (Set.mem_singleton stackSize)
    (by decide)
    (show 0x10000 ≤ 2 ^ 47 by decide)
  refine ⟨x, stackSize, m', hx, he, (stack_aligned_iff 0#64 (S := {stackSize}) ?_).mpr ?_ x
    stackSize m' hx he _ rfl⟩
  · rintro n rfl
    exact (show 0x10000 ≤ 2 ^ 47 by decide)
  · rintro n rfl
    exact ⟨0x1000, rfl⟩

end MiniVisor
