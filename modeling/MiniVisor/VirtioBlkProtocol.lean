import MiniVisor.VirtioBlkServe

/-!
# The driver and the device speak the same protocol

`Connected` is the state of the two between the requests : the driver and the device have the same
rings, all descriptors are free, and the counters agree. `operationSync_connected` is one call of
the driver on the device, and `operations_served` a sequence of calls after `new`. The counters of
both sides have 16 bits and stop at a trap instead of wrapping around, so a sequence ends with the
request 65535. -/

namespace MiniVisor

open Machine

section Driver

variable {σ : Type} {v : Fat32} {pages : Pages σ} {vm : VM} {queue n : ℕ} {file : FileInfo}
  {op : BlkOperation} {b : BlkBoard σ}

/-! ## What the driver puts into the memory -/

namespace BlkBoard

@[simp] theorem device_guestStore (address size value : ℕ) :
    (b.guestStore vm address size value).device = b.device := rfl

@[simp] theorem transfers_guestStore (address size value : ℕ) :
    (b.guestStore vm address size value).env.transfers = b.env.transfers := rfl

@[simp] theorem pages_guestStore (address size value : ℕ) :
    (b.guestStore vm address size value).env.host.pages = b.env.host.pages := rfl

@[simp] theorem memory_guestStore (address size value : ℕ) :
    (b.guestStore vm address size value).env.memory =
      b.env.memory.poke (vm.physical address) size value := rfl

end BlkBoard

namespace VirtioBlk

variable {self : VirtioBlk}

/-- The three descriptors of a request, up to the entry of the available ring. -/
def storeChain (vm : VM) (self : VirtioBlk) (op : BlkOperation) (b : BlkBoard σ) : BlkBoard σ :=
  let b := storeRequest vm op b
  let b := self.storeDescriptor vm 0 op.virtioBlkReq sizeOfVirtioBlkReq virtQueueDescFlagsNext b
  let b := self.storeDescriptor vm 1 op.bufferAddress (op.length % 2 ^ 32) op.flags b
  let b := self.storeNext vm 0 1 b
  let b := b.guestStore vm op.status 1 0xFF
  let b := self.storeDescriptor vm 2 op.status 1 virtQueueDescFlagsWrite b
  self.storeNext vm 1 2 b

/-- Where the driver's rings are. -/
structure RingsOf (queue : ℕ) (driver : VirtioBlk) : Prop where
  descriptors : driver.descriptors = queue
  avail : driver.avail = queue + 1024
  used : driver.used = queue + 4096

theorem RingsOf.physical_descriptor (hr : RingsOf queue self) (hq : QueuePlaced vm queue) (i : ℕ) :
    vm.physical (self.descriptor i) = vm.physical queue + 16 * i := by
  rw [descriptor, hr.descriptors, hq.inRam.physical_add, sizeOfVirtQueueDesc]

theorem RingsOf.physical_field (hr : RingsOf queue self) (hq : QueuePlaced vm queue) (i k : ℕ) :
    vm.physical (self.descriptor i + k) = vm.physical queue + 16 * i + k := by
  rw [descriptor, hr.descriptors, Nat.add_assoc, hq.inRam.physical_add, sizeOfVirtQueueDesc,
    Nat.add_assoc]

theorem RingsOf.physical_avail (hr : RingsOf queue self) (hq : QueuePlaced vm queue) (k : ℕ) :
    vm.physical (self.avail + k) = vm.physical queue + 1024 + k := by
  rw [hr.avail, Nat.add_assoc, hq.inRam.physical_add, Nat.add_assoc]

theorem storeRequest_of_disjoint (hreq : InRam vm op.virtioBlkReq 16) {a k : ℕ}
    (h : a + k ≤ vm.physical op.virtioBlkReq ∨ vm.physical op.virtioBlkReq + 16 ≤ a) :
    (storeRequest vm op b).env.memory.value a k = b.env.memory.value a k := by
  simp only [storeRequest, BlkBoard.memory_guestStore, hreq.physical_add]
  rw [Memory.value_poke_of_disjoint _ (by omega), Memory.value_poke_of_disjoint _ (by omega),
    Memory.value_poke_of_disjoint _ (by omega)]

/-- The two fields of the request that the device reads. -/
theorem storeRequest_fields (hreq : InRam vm op.virtioBlkReq 16)
    (hblock : op.blockAddress >>> 9 < 2 ^ 64) :
    (storeRequest vm op b).env.memory.value (vm.physical op.virtioBlkReq) 4 =
        (if op.isWrite then 1 else 0) ∧
      (storeRequest vm op b).env.memory.value (vm.physical op.virtioBlkReq + 8) 8 =
        op.blockAddress >>> 9 := by
  have htype : (if op.isWrite then virtioBlkTypeOut else virtioBlkTypeIn) < 256 ^ 4 := by
    split_ifs <;> decide
  simp only [storeRequest, BlkBoard.memory_guestStore, hreq.physical_add]
  constructor
  · rw [Memory.value_poke_of_disjoint _ (by omega), Memory.value_poke_of_disjoint _ (by omega),
      Memory.value_poke_self htype]
    rfl
  · rw [Memory.value_poke_self hblock]

theorem storeDescriptor_of_disjoint (hr : RingsOf queue self) (hq : QueuePlaced vm queue)
    {i address length flags a k : ℕ}
    (h : a + k ≤ vm.physical queue + 16 * i ∨ vm.physical queue + 16 * i + 14 ≤ a) :
    (self.storeDescriptor vm i address length flags b).env.memory.value a k =
      b.env.memory.value a k := by
  simp only [storeDescriptor, BlkBoard.memory_guestStore, hr.physical_descriptor hq,
    hr.physical_field hq]
  rw [Memory.value_poke_of_disjoint _ (by omega), Memory.value_poke_of_disjoint _ (by omega),
    Memory.value_poke_of_disjoint _ (by omega)]

/-- A descriptor is read back from any memory that has its fields. -/
theorem storeDescriptor_ofMemory (b : BlkBoard σ) (hr : RingsOf queue self) (hq : QueuePlaced vm queue)
    {i address length flags next : ℕ} (haddress : address < 2 ^ 64) (hlength : length < 2 ^ 32)
    (hflags : flags < 2 ^ 16) {m : Memory}
    (hm : ∀ a k, vm.physical queue + 16 * i ≤ a → a + k ≤ vm.physical queue + 16 * i + 14 →
      m.value a k = (self.storeDescriptor vm i address length flags b).env.memory.value a k)
    (hnext : m.value (vm.physical queue + 16 * i + 14) 2 = next) :
    VirtQueueDesc.ofMemory m (vm.physical queue + 16 * i) = ⟨address, length, flags, next⟩ := by
  rw [VirtQueueDesc.ofMemory, hnext, hm _ 8 (by omega) (by omega), hm _ 4 (by omega) (by omega),
    hm _ 2 (by omega) (by omega)]
  simp only [storeDescriptor, BlkBoard.memory_guestStore, hr.physical_descriptor hq,
    hr.physical_field hq]
  rw [Memory.value_poke_of_disjoint _ (by omega), Memory.value_poke_of_disjoint _ (by omega),
    Memory.value_poke_self haddress, Memory.value_poke_of_disjoint _ (by omega),
    Memory.value_poke_self hlength, Memory.value_poke_self hflags]

/-- The entry of the available ring. -/
theorem publish_eq (hr : RingsOf queue self) (hq : QueuePlaced vm queue)
    (hidx : b.env.memory.value (vm.physical queue + 1024 + 2) 2 = n) : self.publish vm 0 b = (do
      let idx ← checkedAdd 16 n 1
      pure ((b.guestStore vm (self.avail + 4 + 2 * (n % 64)) 2 0).guestStore vm (self.avail + 2) 2
        idx)) := by
  have hload : ∀ b' : BlkBoard σ, b'.guestLoad vm (self.avail + 2) 2 =
      b'.env.memory.value (vm.physical queue + 1024 + 2) 2 := fun b' => by
    rw [BlkBoard.guestLoad, hr.physical_avail hq]
  have hentry : (b.guestStore vm (self.avail + 4 + 2 * (n % 64)) 2 0).env.memory.value
      (vm.physical queue + 1024 + 2) 2 = n := by
    rw [BlkBoard.memory_guestStore, Nat.add_assoc self.avail, hr.physical_avail hq,
      Memory.value_poke_of_disjoint _ (by omega), hidx]
  simp only [publish, hload, hidx, numberOfDescriptors, hentry]

/-- The request leaves the counter of the available ring alone. -/
theorem storeChain_idx (hr : RingsOf queue self) (hq : QueuePlaced vm queue)
    (hop : OperationPlaced vm queue file op)
    (hidx : b.env.memory.value (vm.physical queue + 1024 + 2) 2 = n) :
    (self.storeChain vm op b).env.memory.value (vm.physical queue + 1024 + 2) 2 = n := by
  have hsq := hop.statusQueue.physical hop.status hq.inRam
  have hrq := hop.requestQueue.physical hop.request hq.inRam
  unfold Apart at hsq hrq
  simp (disch := omega) only [storeChain, storeNext, BlkBoard.memory_guestStore,
    hr.physical_field hq, Memory.value_poke_of_disjoint, storeDescriptor_of_disjoint hr hq,
    storeRequest_of_disjoint hop.request, hidx]

/-- Only the memory is written. -/
theorem storeChain_rest (vm : VM) (self : VirtioBlk) (op : BlkOperation) (b : BlkBoard σ) :
    (self.storeChain vm op b).device = b.device ∧
      (self.storeChain vm op b).env.transfers = b.env.transfers ∧
      (self.storeChain vm op b).env.host.pages = b.env.host.pages := by
  refine ⟨?_, ?_, ?_⟩
  · simp only [storeChain, storeNext, storeDescriptor, storeRequest, BlkBoard.device_guestStore]
  · simp only [storeChain, storeNext, storeDescriptor, storeRequest, BlkBoard.transfers_guestStore]
  · simp only [storeChain, storeNext, storeDescriptor, storeRequest, BlkBoard.pages_guestStore]

/-- The memory after the driver has written a request. -/
theorem storeChain_published (hr : RingsOf queue self) (hq : QueuePlaced vm queue)
    (hop : OperationPlaced vm queue file op) (hsize : file.fileSize < 2 ^ 32) (hn : n < 65535)
    (hidx : b.env.memory.value (vm.physical queue + 1024 + 2) 2 = n) :
    ∃ b', self.publish vm 0 (self.storeChain vm op b) = .ok b' ∧
      Published vm queue n op b'.env.memory ∧ b'.device = b.device ∧
      b'.env.transfers = b.env.transfers ∧ b'.env.host.pages = b.env.host.pages := by
  have hfile := hop.inFile
  have hvirtual := hq.virtualLe
  have hreq := hop.request.lt
  have hbuf := hop.buffer.lt
  have hstat := hop.status.lt
  have hlength : op.length % 2 ^ 32 = op.length := Nat.mod_eq_of_lt (by omega)
  have hblock : op.blockAddress >>> 9 < 2 ^ 64 := by
    rw [Nat.shiftRight_eq_div_pow]
    omega
  have hflags : op.flags < 2 ^ 16 := by
    unfold BlkOperation.flags
    split_ifs <;> decide
  obtain ⟨htype, hsector⟩ := storeRequest_fields (b := b) hop.request hblock
  have hsq := hop.statusQueue.physical hop.status hq.inRam
  have hrq := hop.requestQueue.physical hop.request hq.inRam
  have hrs := hop.requestStatus.physical hop.request hop.status
  unfold Apart at hsq hrq hrs
  have hmod : n % 64 < 64 := Nat.mod_lt n (by decide)
  have hentry : vm.physical (self.avail + 4 + 2 * (n % 64)) =
      vm.physical queue + 1024 + 4 + 2 * (n % 64) := by
    rw [Nat.add_assoc self.avail, hr.physical_avail hq, ← Nat.add_assoc]
  have hpublish := publish_eq hr hq (storeChain_idx hr hq hop hidx)
  rw [checkedAdd_of_lt (by omega), Exec.ok_bind, Exec.pure_eq_ok] at hpublish
  obtain ⟨hdevice, htransfers, hpages⟩ := storeChain_rest vm self op b
  refine ⟨_, hpublish, ?_,
    by simp only [BlkBoard.device_guestStore, hdevice],
    by simp only [BlkBoard.transfers_guestStore, htransfers],
    by simp only [BlkBoard.pages_guestStore, hpages]⟩
  simp only [storeChain, storeNext, BlkBoard.memory_guestStore, hr.physical_field hq,
    hr.physical_avail hq, hentry, hlength, sizeOfVirtioBlkReq, virtQueueDescFlagsNext]
  -- Every field is found where it was stored, below the later stores.
  constructor
  · rw [Memory.value_poke_self (by omega)]
  · rw [Memory.value_poke_of_disjoint _ (by omega), Memory.value_poke_self (by decide)]
  · refine storeDescriptor_ofMemory (storeRequest vm op b) hr hq (by omega) (by decide)
      (by decide) (fun a k ha ha' => ?_) ?_
    · simp (disch := omega) only [Memory.value_poke_of_disjoint, storeDescriptor_of_disjoint hr hq,
        BlkBoard.memory_guestStore, hr.physical_field hq]
    · simp (disch := omega) only [Memory.value_poke_of_disjoint, storeDescriptor_of_disjoint hr hq,
        BlkBoard.memory_guestStore, hr.physical_field hq, Memory.value_poke_self]
  · refine storeDescriptor_ofMemory (self.storeDescriptor vm 0 op.virtioBlkReq 16 1
      (storeRequest vm op b)) hr hq (by omega) (by omega) hflags (fun a k ha ha' => ?_) ?_
    · simp (disch := omega) only [Memory.value_poke_of_disjoint, storeDescriptor_of_disjoint hr hq,
        BlkBoard.memory_guestStore, hr.physical_field hq]
    · simp (disch := omega) only [Memory.value_poke_of_disjoint, Memory.value_poke_self]
  · generalize BlkBoard.guestStore vm _ op.status 1 0xFF = b'
    refine ⟨_, storeDescriptor_ofMemory b' hr hq (by omega) (by decide) (by decide)
      (fun a k ha ha' => ?_) rfl⟩
    rw [Memory.value_poke_of_disjoint _ (by omega), Memory.value_poke_of_disjoint _ (by omega),
      Memory.value_poke_of_disjoint _ (by omega)]
    rfl
  · simp (disch := omega) only [Memory.value_poke_of_disjoint, storeDescriptor_of_disjoint hr hq,
      BlkBoard.memory_guestStore, hr.physical_field hq, htype]
  · simp (disch := omega) only [Memory.value_poke_of_disjoint, storeDescriptor_of_disjoint hr hq,
      BlkBoard.memory_guestStore, hr.physical_field hq, hsector]

/-! ## One request -/

/-- A set bit for every descriptor. -/
def allFree : List (BitVec 8) :=
  List.replicate (numberOfDescriptors / 8) 0xFF#8

/-- With all descriptors free, a request takes the first three and gives them back. -/
theorem operationSync_eq (hfree : self.freeBitmap = allFree) (hblock : op.blockAddress % 512 = 0)
    (hlength : op.length % 512 = 0) : self.operationSync v pages vm op b = (do
      let b ← self.publish vm 0 (self.storeChain vm op b)
      let b ← b.writeRegister v pages vm virtioMmioQueueNotify 0
      let (result, b) ← loop (waitStep vm op.status) Fat32.maxIterations b
      pure (result, self, b)) := by
  obtain ⟨descriptors, avail, used, freeBitmap⟩ := self
  obtain rfl : freeBitmap = allFree := hfree
  have haligned : ¬(op.blockAddress &&& (2 ^ 9 - 1) ≠ 0 ∨ op.length &&& (2 ^ 9 - 1) ≠ 0) := by
    rw [Nat.and_two_pow_sub_one_eq_mod, Nat.and_two_pow_sub_one_eq_mod]
    simpa using ⟨hblock, hlength⟩
  rw [operationSync, if_neg haligned]
  rfl

end VirtioBlk

/-- The driver and the device between two requests, the `n`-th and the next one. -/
structure Connected (vm : VM) (queue : ℕ) (file : FileInfo) (n : ℕ) (driver : VirtioBlk)
    (b : BlkBoard σ) : Prop where
  rings : VirtioBlk.RingsOf queue driver
  free : driver.freeBitmap = VirtioBlk.allFree
  device : DeviceAt vm queue file n b.device
  idx : b.env.memory.value (vm.physical queue + 1024 + 2) 2 = n


/-- The notification is an `operation` of the device. -/
theorem writeRegister_notify : b.writeRegister v pages vm virtioMmioQueueNotify 0 = (do
    let (device, env) ← b.device.operation v pages vm b.env
    pure ⟨device, env⟩) := rfl

/-- The driver does not wait : the status is there when the notification returns. -/
theorem loop_waitStep {succeeded : Bool} (h : b.env.memory.value (vm.physical op.status) 1 =
    (if succeeded then virtioBlkSOk else virtioBlkSIoerr)) :
    loop (VirtioBlk.waitStep vm op.status) Fat32.maxIterations b =
      .ok (if succeeded then .ok () else .error (), b) := by
  refine loop_done ?_ (by decide)
  have hload : b.guestLoad vm op.status 1 = (if succeeded then virtioBlkSOk else virtioBlkSIoerr) := h
  simp only [VirtioBlk.waitStep, hload]
  cases succeeded <;> rfl

variable {driver : VirtioBlk}

/-- One request : the device sees it once and as it was given, and both sides are ready for the next
one. -/
theorem operationSync_connected (h : Connected vm queue file n driver b) (hq : QueuePlaced vm queue)
    (hop : OperationPlaced vm queue file op) (hsize : file.fileSize < 2 ^ 32) (hn : n < 65535)
    (hg : v.Geometry) (hp : pages.Outside vm)
    (hio : VirtioBlkMmio.IoFits v pages b.env.host.pages file op.isWrite
      (vm.physical op.bufferAddress) op.blockAddress op.length) :
    ∃ succeeded b', driver.operationSync v pages vm op b =
        .ok (if succeeded then .ok () else .error (), driver, b') ∧
      Connected vm queue file (n + 1) driver b' ∧
      b'.env.transfers = op.transfer vm succeeded :: b.env.transfers := by
  obtain ⟨b₁, hpublish, hpublished, hdevice, htransfers, hpages⟩ :=
    VirtioBlk.storeChain_published h.rings hq hop hsize hn h.idx
  obtain ⟨succeeded, device, env, hoperation, hd, hlog, hstatus, hidx⟩ := operation_published
    (hdevice ▸ h.device) hq hop hsize hn hg hp hpublished (hpages ▸ hio)
  refine ⟨succeeded, ⟨device, env⟩, ?_, ⟨h.rings, h.free, hd, hidx⟩, ?_⟩
  · rw [VirtioBlk.operationSync_eq h.free hop.blockAddress hop.length, hpublish, Exec.ok_bind,
      writeRegister_notify, hoperation]
    simp only [Exec.ok_bind, Exec.pure_eq_ok]
    rw [loop_waitStep (b := ⟨device, env⟩) hstatus]
    rfl
  · rw [hlog, htransfers]

/-- The counter of the available ring does not wrap around. -/
theorem operationSync_overflow (h : Connected vm queue file 65535 driver b) (hq : QueuePlaced vm queue)
    (hop : OperationPlaced vm queue file op) :
    driver.operationSync v pages vm op b = .error .overflow := by
  have hpublish := VirtioBlk.publish_eq h.rings hq (VirtioBlk.storeChain_idx h.rings hq hop h.idx)
  rw [VirtioBlk.operationSync_eq h.free hop.blockAddress hop.length, hpublish]
  rfl

/-! ## The negotiation -/

theorem readRegister_eq {offset value : ℕ} (h : b.device.read offset = .ok value)
    (hlt : value < 2 ^ 32) : b.readRegister offset = .ok value := by
  rw [BlkBoard.readRegister, h, Exec.ok_bind, Exec.pure_eq_ok, Nat.mod_eq_of_lt hlt]

theorem writeRegister_queueNum {value : ℕ} {device : VirtioBlkMmio}
    (h : VirtioBlkMmio.setRings { b.device with queueSize := value } = .ok device) :
    b.writeRegister v pages vm virtioMmioQueueNum value = .ok ⟨device, b.env⟩ := by
  rw [BlkBoard.writeRegister, VirtioBlkMmio.write, if_neg (by decide), if_pos rfl, h]
  rfl

theorem writeRegister_queuePfn {value address : ℕ} {device : VirtioBlkMmio}
    (hlt : value * b.device.pageSize < 2 ^ 64)
    (haddress : vm.getPhysicalAddress (value * b.device.pageSize) = .ok (some address))
    (h : VirtioBlkMmio.setRings { b.device with descriptor := address } = .ok device) :
    b.writeRegister v pages vm virtioMmioQueuePfn value = .ok ⟨device, b.env⟩ := by
  rw [BlkBoard.writeRegister, VirtioBlkMmio.write, if_neg (by decide), if_neg (by decide), if_pos rfl,
    checkedMul_of_lt hlt, Exec.ok_bind, haddress, Exec.ok_bind]
  dsimp only
  rw [h]
  rfl

theorem addStatus_eq {bit : ℕ} (h : b.device.status.toNat ||| bit ≠ 0) :
    VirtioBlk.addStatus v pages vm bit b = .ok ⟨{ b.device with
      status := BitVec.ofNat 32 (b.device.status.toNat ||| bit) }, b.env⟩ := by
  have hread : b.readRegister virtioMmioStatus = .ok (b.device.status.toNat % 2 ^ 32) := rfl
  have hwrite : ∀ x, x ≠ 0 → b.writeRegister v pages vm virtioMmioStatus x =
      .ok ⟨{ b.device with status := BitVec.ofNat 32 x }, b.env⟩ := fun x hx => by
    simp only [BlkBoard.writeRegister, VirtioBlkMmio.write, if_neg hx]
    rfl
  rw [VirtioBlk.addStatus, hread, Exec.ok_bind, Nat.mod_eq_of_lt b.device.status.isLt, hwrite _ h]

/-- The rings of a table that starts at a page. -/
theorem setRings_eq {device : VirtioBlkMmio} (hqueue : device.queueSize = 64)
    (hpage : device.pageSize = 4096) (haligned : device.descriptor % 4096 = 0)
    (hlt : device.descriptor + 8192 ≤ 2 ^ 64) : device.setRings = .ok { device with
      availRing := device.descriptor + 1024
      usedRing := device.descriptor + 4096 } := by
  have hround : (device.descriptor + 1024 + 134 - 1) &&& bitNot 64 4095 = device.descriptor := by
    rw [show (4095 : ℕ) = 2 ^ 12 - 1 by decide, land_bitNot_two_pow (by decide) (by omega)]
    omega
  rw [VirtioBlkMmio.setRings, hqueue, hpage, sizeOfVirtQueueDesc, checkedMul_of_lt (by decide),
    Exec.ok_bind, checkedAdd_of_lt (by omega), Exec.ok_bind, checkedAdd_of_lt (by decide),
    Exec.ok_bind, checkedMul_of_lt (by decide), Exec.ok_bind, checkedAdd_of_lt (by omega),
    Exec.ok_bind, checkedSub_of_le (by omega), Exec.ok_bind, checkedSub_of_le (by decide),
    Exec.ok_bind, hround, checkedAdd_of_lt (by omega), Exec.ok_bind, Exec.pure_eq_ok]

/-- The device after a reset, with some status. -/
def resetDevice (file : FileInfo) (status : BitVec 32) : VirtioBlkMmio where
  file := file
  interruptStatus := 0
  status := status
  queueSize := 0
  queueReady := false
  pageSize := 4096
  descriptor := 0
  availRing := 0
  usedRing := 0
  lastAvailId := 0
  usedId := 0

/-- The device before it is told where the queue is. -/
def sizedDevice (file : FileInfo) : VirtioBlkMmio where
  file := file
  interruptStatus := 0
  status := 11
  queueSize := 64
  queueReady := false
  pageSize := 4096
  descriptor := 0
  availRing := 0 + 1024
  usedRing := 0 + 4096
  lastAvailId := 0
  usedId := 0

theorem addStatus_reset {env : BlkEnv σ} {status : BitVec 32} {bit : ℕ} {status' : BitVec 32}
    (h : status.toNat ||| bit ≠ 0) (hstatus : BitVec.ofNat 32 (status.toNat ||| bit) = status') :
    VirtioBlk.addStatus v pages vm bit ⟨resetDevice file status, env⟩ =
      .ok ⟨resetDevice file status', env⟩ := by
  rw [addStatus_eq h, ← hstatus]
  rfl

/-- The status of the device goes up to `FEATURES_OK`, and it learns the size of the queue. -/
theorem new_eq : VirtioBlk.new v pages vm (some queue) b = (do
    let b := BlkBoard.guestClear vm ⟨sizedDevice b.device.file, b.env⟩ queue 8192
    let b ← b.writeRegister v pages vm virtioMmioQueuePfn ((queue >>> 12) % 2 ^ 32)
    let b ← VirtioBlk.addStatus v pages vm virtioDeviceStatusDriverOk b
    let availableRing ← checkedAdd 64 queue 1024
    let stop ← checkedAdd 64 availableRing 134
    let last ← checkedSub stop 1
    let usedRing ← checkedAdd 64 (last &&& bitNot 64 4095) 4096
    pure (.ok ⟨queue, availableRing, usedRing, VirtioBlk.allFree⟩, b)) := by
  have hreset : b.writeRegister v pages vm virtioMmioStatus 0 =
      .ok ⟨resetDevice b.device.file 0, b.env⟩ := rfl
  have hack : VirtioBlk.addStatus v pages vm virtioDeviceStatusAcknowledge
      ⟨resetDevice b.device.file 0, b.env⟩ = .ok ⟨resetDevice b.device.file 1, b.env⟩ :=
    addStatus_reset (by decide) (by decide)
  have hdriver : VirtioBlk.addStatus v pages vm virtioDeviceStatusDriver
      ⟨resetDevice b.device.file 1, b.env⟩ = .ok ⟨resetDevice b.device.file 3, b.env⟩ :=
    addStatus_reset (by decide) (by decide)
  have hfeatures : VirtioBlk.addStatus v pages vm virtioDeviceStatusFeaturesOk
      ⟨resetDevice b.device.file 3, b.env⟩ = .ok ⟨resetDevice b.device.file 11, b.env⟩ :=
    addStatus_reset (by decide) (by decide)
  have hmagic : b.readRegister virtioMmioMagic = .ok virtioMmioMagicValue :=
    readRegister_eq rfl (by decide)
  have hversion : b.readRegister virtioMmioVersion = .ok 1 := readRegister_eq rfl (by decide)
  have hid : b.readRegister virtioMmioDeviceId = .ok 2 := readRegister_eq rfl (by decide)
  have hvendor : b.readRegister virtioMmioVendorId = .ok 0x554d4551 := readRegister_eq rfl (by decide)
  have hoffered : ∀ device : VirtioBlkMmio, BlkBoard.readRegister ⟨device, b.env⟩
      virtioMmioDeviceFeatures = .ok 0 := fun _ => readRegister_eq rfl (by decide)
  have hmax : ∀ device : VirtioBlkMmio, BlkBoard.readRegister ⟨device, b.env⟩
      virtioMmioQueueNumMax = .ok 1024 := fun _ => readRegister_eq rfl (by decide)
  rw [VirtioBlk.new, hmagic, Exec.ok_bind, if_neg (by simp), hversion, Exec.ok_bind,
    if_neg (by simp), hid, Exec.ok_bind, hvendor, Exec.ok_bind, if_neg (by simp), hreset,
    Exec.ok_bind, hack, Exec.ok_bind, hdriver, Exec.ok_bind, hoffered, Exec.ok_bind,
    if_neg (by simp)]
  have hselect : BlkBoard.writeRegister v pages vm ⟨resetDevice b.device.file 3, b.env⟩
      virtioMmioDriverFeatures 0 = .ok ⟨resetDevice b.device.file 3, b.env⟩ := rfl
  have hpage : BlkBoard.writeRegister v pages vm ⟨resetDevice b.device.file 11, b.env⟩
      virtioMmioGuestPageSize virtioPageSize = .ok ⟨resetDevice b.device.file 11, b.env⟩ := rfl
  have hsel : BlkBoard.writeRegister v pages vm ⟨resetDevice b.device.file 11, b.env⟩
      virtioMmioQueueSel 0 = .ok ⟨resetDevice b.device.file 11, b.env⟩ := rfl
  have hnum : BlkBoard.writeRegister v pages vm ⟨resetDevice b.device.file 11, b.env⟩
      virtioMmioQueueNum numberOfDescriptors = .ok ⟨sizedDevice b.device.file, b.env⟩ :=
    writeRegister_queueNum (setRings_eq rfl rfl rfl (show 0 + 8192 ≤ 2 ^ 64 by decide))
  rw [hselect, Exec.ok_bind, hfeatures, Exec.ok_bind, hpage, Exec.ok_bind, hsel, Exec.ok_bind,
    hmax, Exec.ok_bind, if_neg (by decide), hnum, Exec.ok_bind]
  rfl

/-- The device finds the rings where the driver has put them. -/
theorem writeRegister_queue (hq : QueuePlaced vm queue) (hdevice : b.device = sizedDevice file) :
    ∃ b', b.writeRegister v pages vm virtioMmioQueuePfn ((queue >>> 12) % 2 ^ 32) = .ok b' ∧
      b'.env = b.env ∧ DeviceAt vm queue file 0 b'.device ∧ b'.device.status = 11 := by
  have hstart := hq.start
  have hstop := hq.stop
  have hle := hq.virtualLe
  have hwf := hq.wellFormed.physical
  obtain ⟨hps, hpe⟩ := hq.inRam.physical
  have hqueue : b.device.queueSize = 64 := by rw [hdevice, sizedDevice]
  have hpage : b.device.pageSize = 4096 := by rw [hdevice, sizedDevice]
  have hpfn : (queue >>> 12) % 2 ^ 32 * b.device.pageSize = queue := by
    have := hq.aligned
    rw [hpage, Nat.shiftRight_eq_div_pow]
    omega
  have haligned : vm.physical queue % 4096 = 0 := by
    have := hq.aligned
    have := hq.virtualAligned
    have := hq.physicalAligned
    unfold VM.physical
    omega
  have htranslate : vm.getPhysicalAddress ((queue >>> 12) % 2 ^ 32 * b.device.pageSize) =
      .ok (some (vm.physical queue)) := by
    rw [hpfn]
    exact hq.inRam.getPhysicalAddress hq.wellFormed
  refine ⟨_, writeRegister_queuePfn ?_ htranslate (setRings_eq hqueue hpage haligned ?_), rfl, ?_, ?_⟩
  · rw [hpfn]
    omega
  · show vm.physical queue + 8192 ≤ 2 ^ 64
    omega
  · rw [hdevice]
    exact ⟨⟨rfl, rfl, rfl, rfl, rfl⟩, rfl, rfl⟩
  · rw [hdevice]
    rfl

theorem addStatus_deviceAt (hd : DeviceAt vm queue file n b.device) (hstatus : b.device.status = 11) :
    ∃ b', VirtioBlk.addStatus v pages vm virtioDeviceStatusDriverOk b = .ok b' ∧ b'.env = b.env ∧
      DeviceAt vm queue file n b'.device := by
  have hne : b.device.status.toNat ||| virtioDeviceStatusDriverOk ≠ 0 := by
    rw [hstatus]
    decide
  exact ⟨_, addStatus_eq hne, rfl,
    ⟨⟨hd.file, hd.queueSize, hd.descriptor, hd.availRing, hd.usedRing⟩, hd.lastAvailId, hd.usedId⟩⟩

/-- The driver finds the device, and both agree on the rings. -/
theorem new_connected (hq : QueuePlaced vm queue) (hfile : b.device.file = file) :
    ∃ driver b', VirtioBlk.new v pages vm (some queue) b = .ok (.ok driver, b') ∧
      Connected vm queue file 0 driver b' ∧ b'.env.transfers = b.env.transfers ∧
      b'.env.host.pages = b.env.host.pages := by
  have hqa := hq.aligned
  have hstop := hq.stop
  have hle := hq.virtualLe
  have hround : (queue + 1024 + 134 - 1) &&& bitNot 64 4095 = queue := by
    rw [show (4095 : ℕ) = 2 ^ 12 - 1 by decide, land_bitNot_two_pow (by decide) (by omega)]
    omega
  obtain ⟨b₁, hb₁⟩ : ∃ b₁, BlkBoard.guestClear vm ⟨sizedDevice b.device.file, b.env⟩ queue 8192 = b₁ :=
    ⟨_, rfl⟩
  have hdevice : b₁.device = sizedDevice file := by
    rw [← hb₁, ← hfile]
    rfl
  have hmemory : b₁.env = b.env.withMemory (b.env.memory.poke (vm.physical queue) 8192 0) := by
    rw [← hb₁]
    rfl
  obtain ⟨b₂, hpfn, henv₂, hd₂, hstatus⟩ := writeRegister_queue (v := v) hq hdevice
  obtain ⟨b₃, hok, henv₃, hd₃⟩ := addStatus_deviceAt (v := v) hd₂ hstatus
  have henv : b₃.env = b.env.withMemory (b.env.memory.poke (vm.physical queue) 8192 0) := by
    rw [henv₃, henv₂, hmemory]
  refine ⟨⟨queue, queue + 1024, queue + 4096, VirtioBlk.allFree⟩, b₃, ?_, ?_, ?_, ?_⟩
  · rw [new_eq, hb₁]
    dsimp only
    rw [hpfn, Exec.ok_bind, hok, Exec.ok_bind, checkedAdd_of_lt (by omega), Exec.ok_bind,
      checkedAdd_of_lt (by omega), Exec.ok_bind, checkedSub_of_le (by omega), Exec.ok_bind, hround,
      checkedAdd_of_lt (by omega), Exec.ok_bind, Exec.pure_eq_ok]
  · refine ⟨⟨rfl, rfl, rfl⟩, rfl, hd₃, ?_⟩
    rw [henv]
    exact Memory.value_poke_zero (by omega) (by omega)
  · rw [henv]
    rfl
  · rw [henv]
    rfl

/-! ## Every sequence of requests -/

/-- Each of the requests is placed in the RAM and inside of the file, and its transfer fits when its turn
comes. -/
def OperationsFit (v : Fat32) (pages : Pages σ) (vm : VM) (queue : ℕ) (file : FileInfo) :
    List BlkOperation → VirtioBlk → BlkBoard σ → Prop
  | [], _, _ => True
  | op :: ops, driver, b => OperationPlaced vm queue file op ∧
    VirtioBlkMmio.IoFits v pages b.env.host.pages file op.isWrite (vm.physical op.bufferAddress)
      op.blockAddress op.length ∧
    ∀ r driver' b', driver.operationSync v pages vm op b = .ok (r, driver', b') →
      OperationsFit v pages vm queue file ops driver' b'

/-- What a request returns. -/
def operationResult (succeeded : Bool) : Except Unit Unit :=
  if succeeded then .ok () else .error ()

/-- The requests after the `n`-th one. -/
theorem operations_connected (hq : QueuePlaced vm queue) (hsize : file.fileSize < 2 ^ 32)
    (hg : v.Geometry) (hp : pages.Outside vm) : ∀ {ops : List BlkOperation} {n : ℕ} {b : BlkBoard σ},
    Connected vm queue file n driver b → n + ops.length ≤ 65535 →
    OperationsFit v pages vm queue file ops driver b →
    ∃ (succeeded : List Bool) (b' : BlkBoard σ), succeeded.length = ops.length ∧
      driver.operations v pages vm ops b = .ok (succeeded.map operationResult, driver, b') ∧
      b'.env.transfers = (ops.zipWith (·.transfer vm ·) succeeded).reverse ++ b.env.transfers ∧
      Connected vm queue file (n + ops.length) driver b'
  | [], n, b, h, _, _ => ⟨[], b, rfl, rfl, rfl, h⟩
  | op :: ops, n, b, h, hn, ⟨hop, hio, hrest⟩ => by
    rw [List.length_cons] at hn
    obtain ⟨succeeded, b₁, hsync, hc, hlog⟩ :=
      operationSync_connected h hq hop hsize (by omega) hg hp hio
    obtain ⟨successes, b', hlen, hops, hlogs, hc'⟩ :=
      operations_connected hq hsize hg hp hc (by omega) (hrest _ _ _ hsync)
    refine ⟨succeeded :: successes, b', by rw [List.length_cons, List.length_cons, hlen], ?_, ?_, ?_⟩
    · rw [VirtioBlk.operations, hsync, Exec.ok_bind]
      dsimp only
      rw [hops]
      rfl
    · rw [hlogs, hlog, List.zipWith_cons_cons, List.reverse_cons, List.append_assoc,
        List.singleton_append]
    · rw [List.length_cons, show n + (ops.length + 1) = n + 1 + ops.length by omega]
      exact hc'

/-- The driver finds the device, and each of up to 65535 requests is seen by the device once and as
it was given; the request returns `Ok` exactly if the transfer of the file has succeeded. Behind
them the descriptors are free, the rings of both sides are the same, and the counters agree. -/
theorem operations_served (hq : QueuePlaced vm queue) (hfile : b.device.file = file)
    (hsize : file.fileSize < 2 ^ 32) (hg : v.Geometry) (hp : pages.Outside vm)
    {ops : List BlkOperation} (hcount : ops.length ≤ 65535) :
    ∃ driver b₁, VirtioBlk.new v pages vm (some queue) b = .ok (.ok driver, b₁) ∧
      (OperationsFit v pages vm queue file ops driver b₁ →
        ∃ (succeeded : List Bool) (b' : BlkBoard σ), succeeded.length = ops.length ∧
          driver.operations v pages vm ops b₁ = .ok (succeeded.map operationResult, driver, b') ∧
          b'.env.transfers = (ops.zipWith (·.transfer vm ·) succeeded).reverse ++ b.env.transfers ∧
          Connected vm queue file ops.length driver b') := by
  obtain ⟨driver, b₁, hnew, hc, htransfers, -⟩ := new_connected (v := v) (b := b) hq hfile
  refine ⟨driver, b₁, hnew, fun hfit => ?_⟩
  obtain ⟨succeeded, b', hlen, hops, hlog, hc'⟩ :=
    operations_connected hq hsize hg hp hc (by omega) hfit
  rw [Nat.zero_add] at hc'
  exact ⟨succeeded, b', hlen, hops, by rw [hlog, htransfers], hc'⟩

end Driver

/-! ## A run on one sector -/

/-- A VM with its queue in the second page of its RAM, and a file of one sector that is written. -/
def sectorVm : VM :=
  ⟨0x40000000, 0x80000000, 0x10000000⟩

def sectorFile : FileInfo :=
  ⟨2, 512⟩

def sectorOperation : BlkOperation where
  bufferAddress := 0x40010000
  blockAddress := 0
  length := 512
  isWrite := true
  virtioBlkReq := 0x40020000
  status := 0x40020010

def sectorBoard : BlkBoard Unit :=
  ⟨resetDevice sectorFile 0, ⟨Fat32.blankHost, [], []⟩⟩

theorem sectorVm_placed : QueuePlaced sectorVm 0x40001000 :=
  ⟨⟨by decide, by decide⟩, by decide, by decide, by decide, by decide, by decide, by decide, by decide⟩

theorem sectorOperation_placed : OperationPlaced sectorVm 0x40001000 sectorFile sectorOperation where
  blockAddress := by decide
  length := by decide
  inFile := by decide
  buffer := ⟨by decide, by decide, by decide⟩
  request := ⟨by decide, by decide, by decide⟩
  status := ⟨by decide, by decide, by decide⟩
  bufferQueue := Or.inr (by decide)
  bufferRequest := Or.inl (by decide)
  bufferStatus := Or.inl (by decide)
  requestQueue := Or.inr (by decide)
  requestStatus := Or.inl (by decide)
  statusQueue := Or.inr (by decide)

/-- No page is free. -/
def noPages : Pages Unit where
  allocatePages _ _ s := (none, s)
  freePages _ _ s := s

theorem noPages_outside (vm : VM) : noPages.Outside vm := by
  intro count p buffer p' h
  cases h

theorem sectorOperation_fits (p : Unit) : VirtioBlkMmio.IoFits (Fat32.stepVolume 1 2) noPages p
    sectorFile true (sectorVm.physical 0x40010000) 0 512 where
  write := fun _ host _ => by
    have hf : (Fat32.stepVolume 1 2).HasClusters ⟨2, 512⟩ (fun i => 2 + i) 1 := by
      simpa [Nat.add_comm] using Fat32.stepVolume_hasClusters 1 1 (by decide) (by decide) (by decide)
    obtain ⟨host', hwrite, -⟩ := Fat32.write_stored (Fat32.stepVolume_geometry 1 2) hf (by decide)
      (show 512 ∣ 0 by decide) (show 512 ∣ 512 by decide) (by decide) (by decide)
      (show sectorVm.physical 0x40010000 + 512 ≤ 2 ^ 64 by decide) host
    exact ⟨_, hwrite⟩
  read := fun h => absurd h (by decide)
  inside := fun h => absurd h (by decide)

theorem sectorOperations_fit : ∀ (n : ℕ) (driver : VirtioBlk) (b : BlkBoard Unit),
    OperationsFit (Fat32.stepVolume 1 2) noPages sectorVm 0x40001000 sectorFile
      (List.replicate n sectorOperation) driver b
  | 0, _, _ => trivial
  | n + 1, _, b => ⟨sectorOperation_placed, sectorOperation_fits b.env.host.pages,
    fun _ driver' b' _ => sectorOperations_fit n driver' b'⟩

/-- Two requests. -/
theorem operations_served_two :
    ∃ (driver : VirtioBlk) (succeeded : List Bool) (b' : BlkBoard Unit), succeeded.length = 2 ∧
      b'.env.transfers = (([sectorOperation, sectorOperation]).zipWith (·.transfer sectorVm ·)
        succeeded).reverse ++ [] ∧
      Connected sectorVm 0x40001000 sectorFile 2 driver b' := by
  obtain ⟨driver, b₁, -, hserved⟩ := operations_served (b := sectorBoard) sectorVm_placed rfl
    (show sectorFile.fileSize < 2 ^ 32 by decide) (Fat32.stepVolume_geometry 1 2)
    (noPages_outside sectorVm) (show [sectorOperation, sectorOperation].length ≤ 65535 by decide)
  obtain ⟨succeeded, b', hlen, -, hlog, hc⟩ := hserved (sectorOperations_fit 2 driver b₁)
  exact ⟨driver, succeeded, b', hlen, hlog, hc⟩

theorem operations_append {σ : Type} {v : Fat32} {pages : Pages σ} {vm : VM} {op : BlkOperation}
    {t : Trap} : ∀ {ops : List BlkOperation} {driver driver' : VirtioBlk} {b b' : BlkBoard σ}
    {results : List (Except Unit Unit)},
    driver.operations v pages vm ops b = .ok (results, driver', b') →
    driver'.operationSync v pages vm op b' = .error t →
    driver.operations v pages vm (ops ++ [op]) b = .error t
  | [], driver, driver', b, b', results, h, h' => by
    cases h
    rw [List.nil_append, VirtioBlk.operations, h', Exec.error_bind]
  | op' :: ops, driver, driver', b, b', results, h, h' => by
    rw [VirtioBlk.operations, Exec.bind_eq_ok] at h
    obtain ⟨⟨r, driver₁, b₁⟩, hsync, h⟩ := h
    dsimp only at h
    rw [Exec.bind_eq_ok] at h
    obtain ⟨⟨rs, driver₂, b₂⟩, hops, h⟩ := h
    cases h
    rw [List.cons_append, VirtioBlk.operations, hsync, Exec.ok_bind]
    dsimp only
    rw [operations_append hops h', Exec.error_bind]

/-- The request after these stops in the driver. -/
theorem operations_overflow :
    QueuePlaced sectorVm 0x40001000 ∧ OperationPlaced sectorVm 0x40001000 sectorFile sectorOperation ∧
      ∃ driver b₁, VirtioBlk.new (Fat32.stepVolume 1 2) noPages sectorVm (some 0x40001000) sectorBoard =
          .ok (.ok driver, b₁) ∧
        OperationsFit (Fat32.stepVolume 1 2) noPages sectorVm 0x40001000 sectorFile
          (List.replicate 65536 sectorOperation) driver b₁ ∧
        driver.operations (Fat32.stepVolume 1 2) noPages sectorVm
          (List.replicate 65536 sectorOperation) b₁ = .error .overflow := by
  obtain ⟨driver, b₁, hnew, hc, -⟩ := new_connected (v := Fat32.stepVolume 1 2) (b := sectorBoard)
    sectorVm_placed rfl
  refine ⟨sectorVm_placed, sectorOperation_placed, driver, b₁, hnew, sectorOperations_fit _ driver b₁, ?_⟩
  obtain ⟨succeeded, b', -, hops, -, hc'⟩ := operations_connected sectorVm_placed
    (show sectorFile.fileSize < 2 ^ 32 by decide) (Fat32.stepVolume_geometry 1 2)
    (noPages_outside sectorVm) hc (by rw [List.length_replicate])
    (sectorOperations_fit 65535 driver b₁)
  rw [List.length_replicate, Nat.zero_add] at hc'
  rw [List.replicate_succ']
  exact operations_append hops (operationSync_overflow hc' sectorVm_placed sectorOperation_placed)

end MiniVisor
