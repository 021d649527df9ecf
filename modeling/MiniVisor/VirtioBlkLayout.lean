import MiniVisor.VirtioBlkMmio
import MiniVisor.Fat32Read

/-!
# Where the queue is

The driver gives the number of the page at which the queue starts, and the legacy layout says where
its three parts are : the descriptor table, the available ring behind it, and the used ring at the
first page behind that, a page of the guest. The writes of `QUEUE_NUM` and `QUEUE_PFN` compute the
layout on addresses of the host, after the translation. `laysOut_iff` says when this is the
translation of the layout : the pages of the guest have to be pages of the host, so the RAM has to
start at a multiple of the page size that the guest has chosen.
-/

namespace MiniVisor

open Machine

/-- A queue as a driver describes it, with pages of `2 ^ pageOrder` bytes. -/
structure LegacyQueue where
  pageOrder : ℕ
  size : ℕ
  pfn : ℕ

namespace LegacyQueue

variable (q : LegacyQueue)

/-- The addresses of the guest at which the legacy layout has the three parts of the queue. -/
def descriptor : ℕ :=
  q.pfn * 2 ^ q.pageOrder

def availRing : ℕ :=
  q.descriptor + 16 * q.size

def usedRing : ℕ :=
  roundUp (q.availRing + 2 * (3 + q.size)) q.pageOrder

/-- The queue is in the RAM : from the first descriptor to the last byte of the used ring. -/
structure Fits (vm : VM) : Prop where
  start : vm.ramVirtualBaseAddress ≤ q.descriptor
  stop : q.usedRing + (6 + 8 * q.size) ≤ vm.ramVirtualBaseAddress + vm.ramSize

/-- The pointers of the device are the translations of the three addresses. -/
structure Translated (vm : VM) (device : VirtioBlkMmio) : Prop where
  descriptor : vm.getPhysicalAddress q.descriptor = .ok (some device.descriptor)
  availRing : vm.getPhysicalAddress q.availRing = .ok (some device.availRing)
  usedRing : vm.getPhysicalAddress q.usedRing = .ok (some device.usedRing)

end LegacyQueue

namespace VirtioBlkMmio

variable {σ : Type} (v : Fat32) (pages : Pages σ) (vm : VM)

/-- The guest writes registers, one after the other. -/
def writeAll : List (ℕ × ℕ) → VirtioBlkMmio × BlkEnv σ → Exec (VirtioBlkMmio × BlkEnv σ)
  | [], s => pure s
  | (offset, value) :: writes, s => do
    let s ← s.1.write v pages vm offset value s.2
    writeAll writes s

/-- The page size is written, then the size and the page of the queue in either order, and the
pointers are right. -/
def LaysOut (q : LegacyQueue) (s : VirtioBlkMmio × BlkEnv σ) : Prop :=
  ∀ writes ∈ [[(virtioMmioQueueNum, q.size), (virtioMmioQueuePfn, q.pfn)],
      [(virtioMmioQueuePfn, q.pfn), (virtioMmioQueueNum, q.size)]],
    ∃ self env, writeAll v pages vm ((virtioMmioGuestPageSize, 2 ^ q.pageOrder) :: writes) s =
      .ok (self, env) ∧ q.Translated vm self

/-- The used ring of a queue of `n` entries at the address `d` of the host has an address. -/
def RingsFit (d n o : ℕ) : Prop :=
  roundUp (d + 16 * n + 2 * (3 + n)) o < 2 ^ 64

end VirtioBlkMmio

open VirtioBlkMmio

section

variable {σ : Type} {v : Fat32} {pages : Pages σ} {vm : VM} {self self' : VirtioBlkMmio}
  {s : VirtioBlkMmio × BlkEnv σ} {q : LegacyQueue} {o : ℕ}

/-- The writes of `QUEUE_NUM` and `QUEUE_PFN` return exactly if the rings fit, and what they
compute. -/
theorem setRings_eq_ok (hpage : self.pageSize = 2 ^ o) (ho : o ≤ 64) :
    self.setRings = .ok self' ↔ RingsFit self.descriptor self.queueSize o ∧ self' = { self with
      availRing := self.descriptor + 16 * self.queueSize
      usedRing := roundUp (self.descriptor + 16 * self.queueSize + 2 * (3 + self.queueSize)) o } := by
  have hpos := Nat.two_pow_pos o
  have hle := le_roundUp (self.descriptor + 16 * self.queueSize + 2 * (3 + self.queueSize)) o
  have heq := roundUp_eq (o := o)
    (show self.descriptor + 16 * self.queueSize + 2 * (3 + self.queueSize) ≠ 0 by omega)
  simp only [VirtioBlkMmio.setRings, RingsFit, Exec.bind_eq_ok, Exec.pure_eq_ok, checkedAdd_eq_ok,
    checkedMul_eq_ok, checkedSub_eq_ok, hpage, sizeOfVirtQueueDesc]
  constructor
  · rintro ⟨_, ⟨-, rfl⟩, _, ⟨-, rfl⟩, _, ⟨-, rfl⟩, _, ⟨-, rfl⟩, _, ⟨hstop, rfl⟩, _, ⟨-, rfl⟩, _,
      ⟨-, rfl⟩, _, ⟨hlt, rfl⟩, hself⟩
    rw [land_bitNot_two_pow ho (by omega), ← heq] at hlt hself
    exact ⟨hlt, (Except.ok.inj hself).symm⟩
  · rintro ⟨hlt, rfl⟩
    refine ⟨_, ⟨by omega, rfl⟩, _, ⟨by omega, rfl⟩, _, ⟨by omega, rfl⟩, _, ⟨by omega, rfl⟩, _,
      ⟨by omega, rfl⟩, _, ⟨by omega, rfl⟩, _, ⟨by omega, rfl⟩, _, ⟨?_, rfl⟩, ?_⟩
    · rw [land_bitNot_two_pow ho (by omega), ← heq]
      exact hlt
    · rw [land_bitNot_two_pow ho (by omega), ← heq]

/-- A queue in the RAM of a virtual machine. -/
structure LegacyQueue.Within (q : LegacyQueue) (vm : VM) : Prop extends q.Fits vm where
  memory : vm.WellFormed
  order : q.pageOrder ≤ 64
  base : 2 ^ q.pageOrder ∣ vm.ramVirtualBaseAddress

/-- The address of the host of the descriptor table. -/
def LegacyQueue.table (q : LegacyQueue) (vm : VM) : ℕ :=
  q.descriptor - vm.ramVirtualBaseAddress + vm.ramPhysicalBaseAddress

theorem LegacyQueue.availRing_le (q : LegacyQueue) : q.availRing + 2 * (3 + q.size) ≤ q.usedRing :=
  le_roundUp _ _

/-- The three addresses are in the RAM. -/
theorem LegacyQueue.Within.translated_iff (h : q.Within vm) : q.Translated vm self ↔
    self.descriptor = q.table vm ∧ self.availRing = q.table vm + 16 * q.size ∧
      self.usedRing = q.usedRing - vm.ramVirtualBaseAddress + vm.ramPhysicalBaseAddress := by
  have hstart := h.start
  have hstop := h.stop
  have hle := q.availRing_le
  have havail : q.availRing = q.descriptor + 16 * q.size := rfl
  have htranslate : ∀ {x y : ℕ}, vm.ramVirtualBaseAddress ≤ x →
      x < vm.ramVirtualBaseAddress + vm.ramSize → (vm.getPhysicalAddress x = .ok (some y) ↔
        y = x - vm.ramVirtualBaseAddress + vm.ramPhysicalBaseAddress) := by
    intro x y hx hx'
    rw [h.memory.getPhysicalAddress, if_pos ⟨hx, hx'⟩]
    exact ⟨fun he => (Option.some.inj (Except.ok.inj he)).symm, fun he => by rw [he]⟩
  have hring : q.availRing - vm.ramVirtualBaseAddress + vm.ramPhysicalBaseAddress =
      q.table vm + 16 * q.size := by
    rw [LegacyQueue.table]
    omega
  constructor
  · intro ht
    exact ⟨(htranslate hstart (by omega)).mp ht.descriptor,
      ((htranslate (by omega) (by omega)).mp ht.availRing).trans hring,
      (htranslate (by omega) (by omega)).mp ht.usedRing⟩
  · rintro ⟨hd, ha, hu⟩
    exact ⟨(htranslate hstart (by omega)).mpr hd,
      (htranslate (by omega) (by omega)).mpr (ha.trans hring.symm),
      (htranslate (by omega) (by omega)).mpr hu⟩

/-- The used ring behind the translated table, if the pages of the guest are pages of the host. -/
theorem LegacyQueue.Within.roundUp_table (h : q.Within vm)
    (hbase : 2 ^ q.pageOrder ∣ vm.ramPhysicalBaseAddress) :
    roundUp (q.table vm + 16 * q.size + 2 * (3 + q.size)) q.pageOrder =
      q.usedRing - vm.ramVirtualBaseAddress + vm.ramPhysicalBaseAddress := by
  have hstart := h.start
  have hle := q.availRing_le
  have havail : q.availRing = q.descriptor + 16 * q.size := rfl
  have hshift : q.table vm + 16 * q.size + 2 * (3 + q.size) + vm.ramVirtualBaseAddress =
      q.availRing + 2 * (3 + q.size) + vm.ramPhysicalBaseAddress := by
    rw [LegacyQueue.table]
    omega
  have hround := congrArg (roundUp · q.pageOrder) hshift
  simp only [roundUp_add _ h.base, roundUp_add _ hbase] at hround
  have hused : q.usedRing = roundUp (q.availRing + 2 * (3 + q.size)) q.pageOrder := rfl
  omega

/-- A page of the guest is a page of the host where the used ring is right. -/
theorem LegacyQueue.Within.base_of_roundUp {x : ℕ} (h : q.Within vm)
    (hx : roundUp x q.pageOrder =
      q.usedRing - vm.ramVirtualBaseAddress + vm.ramPhysicalBaseAddress) :
    2 ^ q.pageOrder ∣ vm.ramPhysicalBaseAddress := by
  have hused : 2 ^ q.pageOrder ∣ q.usedRing - vm.ramVirtualBaseAddress :=
    Nat.dvd_sub (dvd_roundUp _ _) h.base
  exact (Nat.dvd_add_right hused).mp (hx ▸ dvd_roundUp _ _)

/-! ## The writes -/

theorem write_queueNum (value : ℕ) : s.1.write v pages vm virtioMmioQueueNum value s.2 =
    (setRings { s.1 with queueSize := value } >>= fun self => .ok (self, s.2)) :=
  rfl

theorem LegacyQueue.Within.write_queuePfn (h : q.Within vm)
    (hpage : s.1.pageSize = 2 ^ q.pageOrder) :
    s.1.write v pages vm virtioMmioQueuePfn q.pfn s.2 =
      (setRings { s.1 with descriptor := q.table vm } >>= fun self => .ok (self, s.2)) := by
  have hstart := h.start
  have hstop := h.stop
  have hle := q.availRing_le
  have hv := h.memory.virtual
  have havail : q.availRing = q.descriptor + 16 * q.size := rfl
  have hmul : checkedMul 64 q.pfn s.1.pageSize = .ok q.descriptor := by
    rw [hpage]
    exact checkedMul_of_lt (show q.descriptor < 2 ^ 64 by omega)
  rw [VirtioBlkMmio.write, if_neg (by decide), if_neg (by decide), if_pos rfl, hmul, Exec.ok_bind,
    h.memory.getPhysicalAddress, if_pos ⟨hstart, by omega⟩]
  rfl

/-- The device after the three writes. -/
def LegacyQueue.configured (q : LegacyQueue) (vm : VM) (self : VirtioBlkMmio) : VirtioBlkMmio :=
  { self with
    pageSize := 2 ^ q.pageOrder
    queueSize := q.size
    descriptor := q.table vm
    availRing := q.table vm + 16 * q.size
    usedRing := roundUp (q.table vm + 16 * q.size + 2 * (3 + q.size)) q.pageOrder }

/-- The size first : the rings are computed once for the old table and once for the new one. -/
theorem LegacyQueue.Within.writeAll_sizeFirst {env : BlkEnv σ} (h : q.Within vm) :
    writeAll v pages vm [(virtioMmioGuestPageSize, 2 ^ q.pageOrder), (virtioMmioQueueNum, q.size),
      (virtioMmioQueuePfn, q.pfn)] s = .ok (self, env) ↔
    (RingsFit s.1.descriptor q.size q.pageOrder ∧ RingsFit (q.table vm) q.size q.pageOrder) ∧
      self = q.configured vm s.1 ∧ env = s.2 := by
  have hpage : s.1.write v pages vm virtioMmioGuestPageSize (2 ^ q.pageOrder) s.2 =
      .ok ({ s.1 with pageSize := 2 ^ q.pageOrder }, s.2) := rfl
  simp only [writeAll, hpage, Exec.ok_bind, write_queueNum, Exec.bind_eq_ok, Exec.pure_eq_ok]
  constructor
  · rintro ⟨_, ⟨_, hrings, he⟩, s₂, hwrite, hs₂⟩
    obtain ⟨hfit, rfl⟩ := (setRings_eq_ok rfl h.order).mp hrings
    cases he
    rw [h.write_queuePfn rfl, Exec.bind_eq_ok] at hwrite
    obtain ⟨self₂, hrings', he⟩ := hwrite
    obtain ⟨hfit', rfl⟩ := (setRings_eq_ok rfl h.order).mp hrings'
    cases he
    cases hs₂
    exact ⟨⟨hfit, hfit'⟩, rfl, rfl⟩
  · rintro ⟨⟨hfit, hfit'⟩, rfl, rfl⟩
    refine ⟨_, ⟨_, (setRings_eq_ok rfl h.order).mpr ⟨hfit, rfl⟩, rfl⟩, (q.configured vm s.1, s.2), ?_,
      rfl⟩
    rw [h.write_queuePfn rfl, Exec.bind_eq_ok]
    exact ⟨q.configured vm s.1, (setRings_eq_ok rfl h.order).mpr ⟨hfit', rfl⟩, rfl⟩

/-- The page first : the rings are computed once for the old size and once for the new one. -/
theorem LegacyQueue.Within.writeAll_pageFirst {env : BlkEnv σ} (h : q.Within vm) :
    writeAll v pages vm [(virtioMmioGuestPageSize, 2 ^ q.pageOrder), (virtioMmioQueuePfn, q.pfn),
      (virtioMmioQueueNum, q.size)] s = .ok (self, env) ↔
    (RingsFit (q.table vm) s.1.queueSize q.pageOrder ∧ RingsFit (q.table vm) q.size q.pageOrder) ∧
      self = q.configured vm s.1 ∧ env = s.2 := by
  have hpage : s.1.write v pages vm virtioMmioGuestPageSize (2 ^ q.pageOrder) s.2 =
      .ok ({ s.1 with pageSize := 2 ^ q.pageOrder }, s.2) := rfl
  simp only [writeAll, hpage, Exec.ok_bind, h.write_queuePfn
      (s := ({ s.1 with pageSize := 2 ^ q.pageOrder }, s.2)) rfl, write_queueNum, Exec.bind_eq_ok,
    Exec.pure_eq_ok]
  constructor
  · rintro ⟨_, ⟨_, hrings, he⟩, s₂, ⟨self₂, hrings', he'⟩, hs₂⟩
    obtain ⟨hfit, rfl⟩ := (setRings_eq_ok rfl h.order).mp hrings
    cases he
    obtain ⟨hfit', rfl⟩ := (setRings_eq_ok rfl h.order).mp hrings'
    cases he'
    cases hs₂
    exact ⟨⟨hfit, hfit'⟩, rfl, rfl⟩
  · rintro ⟨⟨hfit, hfit'⟩, rfl, rfl⟩
    exact ⟨_, ⟨_, (setRings_eq_ok rfl h.order).mpr ⟨hfit, rfl⟩, rfl⟩, (q.configured vm s.1, s.2),
      ⟨q.configured vm s.1, (setRings_eq_ok rfl h.order).mpr ⟨hfit', rfl⟩, rfl⟩, rfl⟩

/-- The device that is configured is right exactly if the pages of the guest are pages of the
host, and then its rings fit. -/
theorem LegacyQueue.Within.configured_iff (h : q.Within vm) :
    RingsFit (q.table vm) q.size q.pageOrder ∧ q.Translated vm (q.configured vm self) ↔
      2 ^ q.pageOrder ∣ vm.ramPhysicalBaseAddress := by
  rw [h.translated_iff]
  constructor
  · rintro ⟨-, -, -, hused⟩
    exact h.base_of_roundUp hused
  · intro hbase
    have hused := h.roundUp_table hbase
    have hstart := h.start
    have hstop := h.stop
    have hle := q.availRing_le
    have havail : q.availRing = q.descriptor + 16 * q.size := rfl
    have hp := h.memory.physical
    refine ⟨?_, rfl, rfl, hused⟩
    rw [RingsFit, hused]
    omega

theorem LegacyQueue.Within.laysOut (h : q.Within vm) : LaysOut v pages vm q s ↔
    2 ^ q.pageOrder ∣ vm.ramPhysicalBaseAddress ∧ RingsFit s.1.descriptor q.size q.pageOrder ∧
      RingsFit (q.table vm) s.1.queueSize q.pageOrder := by
  simp only [LaysOut, List.forall_mem_cons, List.not_mem_nil, false_implies, implies_true, and_true,
    h.writeAll_sizeFirst, h.writeAll_pageFirst]
  constructor
  · rintro ⟨⟨_, _, ⟨⟨hold, hfit⟩, rfl, -⟩, ht⟩, _, _, ⟨⟨hold', -⟩, -, -⟩, -⟩
    exact ⟨h.configured_iff.mp ⟨hfit, ht⟩, hold, hold'⟩
  · rintro ⟨hbase, hold, hold'⟩
    obtain ⟨hfit, ht⟩ := h.configured_iff.mpr hbase
    exact ⟨⟨_, _, ⟨⟨hold, hfit⟩, rfl, rfl⟩, ht⟩, _, _, ⟨⟨hold', hfit⟩, rfl, rfl⟩, ht⟩

/-! ## The machine of `create_vm` -/

/-- The virtual machine whose RAM `create_vm` has allocated at `base`. -/
def vmAt (base : ℕ) : VM :=
  ⟨ramVirtualBase, base, ramSize⟩

/-- A queue that is in the RAM has pages smaller than it. -/
theorem LegacyQueue.Fits.within {base : ℕ} (h : q.Fits (vmAt base)) (hbase : base + ramSize ≤ 2 ^ 64) :
    q.Within (vmAt base) := by
  have hpage : 2 ^ q.pageOrder ≤ q.usedRing := by
    rw [LegacyQueue.usedRing, roundUp_eq (by omega)]
    exact Nat.le_add_left _ _
  have hstop := h.stop
  simp only [vmAt, ramVirtualBase, ramSize] at hstop
  have horder : q.pageOrder < 31 := by
    rw [← Nat.pow_lt_pow_iff_right (show 1 < 2 by decide)]
    omega
  refine ⟨h, ⟨show ramVirtualBase + ramSize < 2 ^ 64 by decide, hbase⟩, by omega, ?_⟩
  exact Nat.pow_dvd_pow 2 (show q.pageOrder ≤ 30 by omega)

/-- The queue is laid out right exactly if the RAM starts at a multiple of the guest's page size,
and no ring that the first write computes from the older registers overflows. -/
theorem laysOut_iff (base : ℕ) (hbase : base + ramSize ≤ 2 ^ 64) (q : LegacyQueue)
    (hq : q.Fits (vmAt base)) (s : VirtioBlkMmio × BlkEnv σ) :
    LaysOut v pages (vmAt base) q s ↔ 2 ^ q.pageOrder ∣ base ∧
      RingsFit s.1.descriptor q.size q.pageOrder ∧
      RingsFit (q.descriptor - ramVirtualBase + base) s.1.queueSize q.pageOrder :=
  (hq.within hbase).laysOut

/-- A device after a reset, and a driver with pages of 64 KiB. -/
theorem laysOut_iff_page : ∃ s : VirtioBlkMmio × BlkEnv Unit, VirtioBlkMmio.new ⟨2, 512⟩ = .ok s.1 ∧
    LaysOut (Fat32.stepVolume 1 2) Fat32.onePage (vmAt 0x80010000) ⟨16, 1024, 0x4000⟩ s := by
  refine ⟨⟨_, ⟨Fat32.blankHost, [], []⟩⟩, rfl, ?_⟩
  rw [laysOut_iff 0x80010000 (by decide) _ ⟨by decide, by decide⟩]
  exact ⟨by decide, by simp only [RingsFit]; decide, by simp only [RingsFit]; decide⟩

/-- The same driver in a RAM that starts at an odd multiple of 4 KiB : the used ring is a page of the
host, and that is not a page of the guest. -/
theorem not_laysOut : ∃ s : VirtioBlkMmio × BlkEnv Unit, VirtioBlkMmio.new ⟨2, 512⟩ = .ok s.1 ∧
    LegacyQueue.Fits ⟨16, 1024, 0x4000⟩ (vmAt 0x80001000) ∧
    ¬LaysOut (Fat32.stepVolume 1 2) Fat32.onePage (vmAt 0x80001000) ⟨16, 1024, 0x4000⟩ s := by
  refine ⟨⟨_, ⟨Fat32.blankHost, [], []⟩⟩, rfl, ⟨by decide, by decide⟩, fun h => ?_⟩
  obtain ⟨self, env, he, ht⟩ := h _ (.head _)
  cases he
  exact absurd ht.usedRing (by decide)

end

end MiniVisor
