import MiniVisor.VirtioBlkMmio
import MiniVisor.Fat32ReadFrame
import MiniVisor.Fat32WriteFrame

/-!
# The device's accesses to the queue

What each function of the device does when its addresses do not leave the address space, and which part of
the memory a transfer of the file can change.
-/

namespace MiniVisor

open Machine

namespace BlkEnv

variable {σ : Type} {env : BlkEnv σ}

@[simp] theorem value_touch (address size a n : ℕ) :
    (env.touch address size).memory.value a n = env.memory.value a n :=
  Memory.value_touch ..

@[simp] theorem bytes_touch (address size : ℕ) :
    (env.touch address size).memory.bytes = env.memory.bytes := rfl

@[simp] theorem pages_touch (address size : ℕ) :
    (env.touch address size).host.pages = env.host.pages := rfl

@[simp] theorem transfers_touch (address size : ℕ) :
    (env.touch address size).transfers = env.transfers := rfl

@[simp] theorem memory_store (address size value : ℕ) :
    (env.store address size value).memory = env.memory.store address size value := rfl

@[simp] theorem pages_store (address size value : ℕ) :
    (env.store address size value).host.pages = env.host.pages := rfl

@[simp] theorem transfers_store (address size value : ℕ) :
    (env.store address size value).transfers = env.transfers := rfl

@[simp] theorem ofMemory_touch (address size a : ℕ) :
    VirtQueueDesc.ofMemory (env.touch address size).memory a = VirtQueueDesc.ofMemory env.memory a := by
  simp [VirtQueueDesc.ofMemory]

end BlkEnv

/-- A descriptor that lies outside of the part of the memory that has changed. -/
theorem VirtQueueDesc.ofMemory_congr {m m' : Memory} {a : ℕ}
    (h : ∀ x, a ≤ x → x < a + 16 → m'.bytes x = m.bytes x) :
    VirtQueueDesc.ofMemory m' a = VirtQueueDesc.ofMemory m a := by
  have hv : ∀ x n, a ≤ x → x + n ≤ a + 16 → m'.value x n = m.value x n := fun x n hx hn =>
    Memory.value_congr fun y hy hy' => h y (by omega) (by omega)
  unfold VirtQueueDesc.ofMemory
  rw [hv a 8 le_rfl (by omega), hv (a + 8) 4 (by omega) (by omega), hv (a + 12) 2 (by omega) (by omega),
    hv (a + 14) 2 (by omega) (by omega)]

/-! ## Transfers of the file -/

/-- No page that is handed out lies in the RAM of the guest. -/
def Pages.Outside {σ : Type} (pages : Pages σ) (vm : VM) : Prop :=
  ∀ count p buffer p', pages.allocatePages count 0 p = (some buffer, p') →
    ∀ a, buffer ≤ a → a < buffer + count * 4096 → vm.ramPhysicalBaseAddress ≤ a →
      vm.ramPhysicalBaseAddress + vm.ramSize ≤ a

/-- A read that stays inside of its buffer changes nothing else in the RAM of the guest. -/
theorem Fat32.StaysInside.bytes {σ : Type} {pages : Pages σ} {vm : VM} (hp : pages.Outside vm)
    {bufferAddress length : ℕ} {host host' : BlockHost σ}
    (h : StaysInside pages bufferAddress length host host') {a : ℕ}
    (ha : vm.ramPhysicalBaseAddress ≤ a) (ha' : a < vm.ramPhysicalBaseAddress + vm.ramSize)
    (hout : a < bufferAddress ∨ bufferAddress + length ≤ a) :
    host'.memory.bytes a = host.memory.bytes a := by
  obtain ⟨new, hnew, -, hbytes⟩ := h.confined.accesses
  obtain ⟨new', hnew', hbounce⟩ := h.bounce
  obtain rfl : new = new' := List.append_cancel_right (hnew.symm.trans hnew')
  refine hbytes a (fun hin => ?_) fun x hx hpriv hin => ?_
  · rcases hout with hout | hout
    · exact absurd hin.1 (not_le.mpr hout)
    · exact absurd hin.2 (not_lt.mpr hout)
  · obtain ⟨buffer, count, p, halloc, -, hrange⟩ := hbounce x hx hpriv
    have hmem := hrange hin
    exact absurd (hp count _ buffer p halloc a hmem.1 hmem.2 ha) (not_le.mpr ha')

namespace VirtioBlkMmio

variable {σ : Type} {v : Fat32} {pages : Pages σ} {vm : VM} {self : VirtioBlkMmio} {env : BlkEnv σ}

/-- The file can be read or written for a buffer of the guest : the call returns, whatever is in the
memory, and a read stays inside of the buffer. -/
structure IoFits (v : Fat32) (pages : Pages σ) (p : σ) (file : FileInfo) (isWrite : Bool)
    (address offset size : ℕ) : Prop where
  write : isWrite = true → ∀ host : BlockHost σ, host.pages = p →
    Exec.Returns (v.write file address offset size host)
  read : isWrite = false → ∀ host : BlockHost σ, host.pages = p →
    Exec.Returns (v.read pages file address offset size host)
  inside : isWrite = false → v.ReadFits pages p file offset size

/-- A transfer is recorded, and changes only the buffer. -/
theorem transferFile_spec (hg : v.Geometry) (hp : pages.Outside vm) {isWrite : Bool}
    {address offset size : ℕ}
    (hio : IoFits v pages env.host.pages self.file isWrite address offset size) :
    ∃ succeeded env', self.transferFile v pages isWrite address offset size env =
        .ok (succeeded, env') ∧
      env'.transfers = ⟨isWrite, address, offset, size, succeeded⟩ :: env.transfers ∧
      ∀ a, vm.ramPhysicalBaseAddress ≤ a → a < vm.ramPhysicalBaseAddress + vm.ramSize →
        a < address ∨ address + size ≤ a → env'.memory.bytes a = env.memory.bytes a := by
  cases isWrite with
  | true =>
    obtain ⟨⟨r, host⟩, hr⟩ := hio.write rfl env.host rfl
    refine ⟨_, _, by rw [transferFile, if_pos rfl, hr]; rfl, rfl, fun a _ _ _ => ?_⟩
    exact congrFun (Fat32.write_bytes hg hr) a
  | false =>
    obtain ⟨⟨r, host⟩, hr⟩ := hio.read rfl env.host rfl
    refine ⟨_, _, by rw [transferFile, if_neg (by decide), hr]; rfl, rfl, fun a ha ha' hout => ?_⟩
    exact (Fat32.read_staysInside hg hr (hio.inside rfl)).bytes hp ha ha' hout

/-! ## The rings -/

theorem getDescriptor_eq (hnull : self.descriptor ≠ 0) {id : ℕ}
    (hlt : self.descriptor + 16 * id < 2 ^ 64) : self.getDescriptor id env =
      .ok (some (VirtQueueDesc.ofMemory env.memory (self.descriptor + 16 * id)),
        env.touch (self.descriptor + 16 * id) 16) := by
  rw [getDescriptor, if_pos hnull, sizeOfVirtQueueDesc, checkedMul_of_lt (by omega), Exec.ok_bind,
    checkedAdd_of_lt hlt, Exec.ok_bind, Exec.pure_eq_ok]

theorem getDescriptorId_eq (hnull : self.availRing ≠ 0) {id : ℕ}
    (hlt : self.availRing + 4 + 2 * id < 2 ^ 64) : self.getDescriptorId id env =
      .ok (some (env.memory.value (self.availRing + 4 + 2 * id) 2),
        env.touch (self.availRing + 4 + 2 * id) 2) := by
  rw [getDescriptorId, if_pos hnull, sizeOfRingHeader, checkedAdd_of_lt (by omega), Exec.ok_bind,
    checkedMul_of_lt (by omega), Exec.ok_bind, checkedAdd_of_lt hlt, Exec.ok_bind, Exec.pure_eq_ok]

theorem getNextAvailId_none (hnull : self.availRing ≠ 0)
    (hidx : env.memory.value (self.availRing + 2) 2 = self.lastAvailId) :
    self.getNextAvailId env = .ok (none, self, env.touch (self.availRing + 2) 2) := by
  rw [getNextAvailId, if_neg hnull, if_pos hidx.symm]

theorem getNextAvailId_some (hnull : self.availRing ≠ 0)
    (hidx : env.memory.value (self.availRing + 2) 2 ≠ self.lastAvailId)
    (hsize : self.queueSize % 2 ^ 16 ≠ 0) (hlast : self.lastAvailId + 1 < 2 ^ 16) :
    self.getNextAvailId env = .ok (some (self.lastAvailId % (self.queueSize % 2 ^ 16)),
      { self with lastAvailId := self.lastAvailId + 1 }, env.touch (self.availRing + 2) 2) := by
  rw [getNextAvailId, if_neg hnull, if_neg (Ne.symm hidx), checkedMod, if_neg hsize, Exec.ok_bind,
    checkedAdd_of_lt hlast, Exec.ok_bind, Exec.pure_eq_ok]

theorem writeUsed_eq (hnull : self.usedRing ≠ 0) (hsize : self.queueSize % 2 ^ 16 ≠ 0)
    (hused : self.usedId + 1 < 2 ^ 16) {id length : ℕ}
    (hlt : self.usedRing + 4 + 8 * (self.usedId % (self.queueSize % 2 ^ 16)) < 2 ^ 64) :
    self.writeUsed id length env = .ok ({ self with usedId := self.usedId + 1 },
      (env.store (self.usedRing + 4 + 8 * (self.usedId % (self.queueSize % 2 ^ 16))) 8
        (id + length * 2 ^ 32)).store (self.usedRing + 2) 2 (self.usedId + 1)) := by
  rw [writeUsed, checkedMod, if_neg hsize, Exec.ok_bind, checkedAdd_of_lt hused, Exec.ok_bind,
    sizeOfRingHeader, checkedAdd_of_lt (by omega), Exec.ok_bind, sizeOfVirtQueueUsedElement,
    checkedMul_of_lt (by omega), Exec.ok_bind, checkedAdd_of_lt hlt, Exec.ok_bind, if_neg hnull,
    Exec.pure_eq_ok]

end VirtioBlkMmio

end MiniVisor
