import MiniVisor.VirtioBlkMmio

/-!
# The block device driver on the emulated device

`drivers/virtio_blk.rs` is a driver for a virtio block device. Here it runs in a guest and drives
the device of `mmio/virtio_blk.rs` : an access to a register is a call of the device's `read` or
`write`, and an access to memory goes to where the RAM of the guest is in the host. The addresses of
the request and of the status byte, which are on the stack of `operation_sync`, and of the queue,
which comes from the guest's page allocator, are arguments. -/

namespace MiniVisor

open Machine

def virtioDeviceStatusAcknowledge : ℕ := 1
def virtioDeviceStatusDriver : ℕ := 2
def virtioDeviceStatusDriverOk : ℕ := 4
def virtioDeviceStatusFeaturesOk : ℕ := 8
def virtioBlkFRo : ℕ := 1 <<< 5

/-- The sizes of `VirtQueueAvail` and `VirtQueueUsed`. -/
def sizeOfVirtQueueAvail : ℕ := 2 + 2 + 2 * numberOfDescriptors + 2
def sizeOfVirtQueueUsed : ℕ := 520

def numberOfPagesQueue : ℕ :=
  ((sizeOfVirtQueueDesc * numberOfDescriptors + sizeOfVirtQueueAvail) >>> virtioPageShift) + 1 +
    ((sizeOfVirtQueueUsed >>> virtioPageShift) + 1)

/-! ## The guest and its device -/

/-- The device that a guest sees, and the host behind it. -/
structure BlkBoard (σ : Type) where
  device : VirtioBlkMmio
  env : BlkEnv σ

namespace BlkBoard

variable {σ : Type} (v : Fat32) (pages : Pages σ) (vm : VM) (b : BlkBoard σ)

/-- The guest reads a number in its memory. -/
def guestLoad (address size : ℕ) : ℕ :=
  b.env.memory.value (vm.physical address) size

/-- The guest writes a number to its memory. -/
def guestStore (address size value : ℕ) : BlkBoard σ :=
  { b with env := b.env.withMemory (b.env.memory.poke (vm.physical address) size value) }

/-- The guest zeroes a part of its memory. -/
def guestClear (address size : ℕ) : BlkBoard σ :=
  { b with env := b.env.withMemory (b.env.memory.poke (vm.physical address) size 0) }

/-- `read_register`. -/
def readRegister (offset : ℕ) : Exec ℕ := do
  pure ((← b.device.read offset) % 2 ^ 32)

/-- `write_register`. -/
def writeRegister (offset data : ℕ) : Exec (BlkBoard σ) := do
  let (device, env) ← b.device.write v pages vm offset data b.env
  pure ⟨device, env⟩

end BlkBoard

/-! ## The driver -/

structure VirtioBlk where
  descriptors : ℕ
  avail : ℕ
  used : ℕ
  freeBitmap : List (BitVec 8)
  deriving DecidableEq, Repr

/-- What `operation_sync` is called with, and where its locals are. -/
structure BlkOperation where
  bufferAddress : ℕ
  blockAddress : ℕ
  length : ℕ
  isWrite : Bool
  virtioBlkReq : ℕ
  status : ℕ
  deriving DecidableEq, Repr

namespace VirtioBlk

variable {σ : Type} (v : Fat32) (pages : Pages σ) (vm : VM)

/-- A bit of the device status is set. -/
def addStatus (bit : ℕ) (b : BlkBoard σ) : Exec (BlkBoard σ) := do
  let status ← b.readRegister virtioMmioStatus
  b.writeRegister v pages vm virtioMmioStatus (status ||| bit)

/-- `new`, with the result of `allocate_pages`. -/
def new (queue : Option ℕ) (b : BlkBoard σ) : Exec (Except Unit VirtioBlk × BlkBoard σ) := do
  if (← b.readRegister virtioMmioMagic) ≠ virtioMmioMagicValue then return (.error (), b)
  if (← b.readRegister virtioMmioVersion) ≠ 1 then return (.error (), b)
  if (← b.readRegister virtioMmioDeviceId) ≠ 2 ∨
      (← b.readRegister virtioMmioVendorId) ≠ 0x554d4551 then return (.error (), b)
  let b ← b.writeRegister v pages vm virtioMmioStatus 0
  let b ← addStatus v pages vm virtioDeviceStatusAcknowledge b
  let b ← addStatus v pages vm virtioDeviceStatusDriver b
  let features ← b.readRegister virtioMmioDeviceFeatures
  if features &&& virtioBlkFRo ≠ 0 then return (.error (), b)
  let b ← b.writeRegister v pages vm virtioMmioDriverFeatures 0
  let b ← addStatus v pages vm virtioDeviceStatusFeaturesOk b
  let b ← b.writeRegister v pages vm virtioMmioGuestPageSize virtioPageSize
  let b ← b.writeRegister v pages vm virtioMmioQueueSel 0
  let queueMax ← b.readRegister virtioMmioQueueNumMax
  if queueMax < numberOfDescriptors then return (.error (), b)
  let b ← b.writeRegister v pages vm virtioMmioQueueNum numberOfDescriptors
  match queue with
  | none => .error .unwrap
  | some queue =>
    let b := b.guestClear vm queue (numberOfPagesQueue <<< virtioPageShift)
    let b ← b.writeRegister v pages vm virtioMmioQueuePfn ((queue >>> virtioPageShift) % 2 ^ 32)
    let b ← addStatus v pages vm virtioDeviceStatusDriverOk b
    let availableRing ← checkedAdd 64 queue (sizeOfVirtQueueDesc * numberOfDescriptors)
    let stop ← checkedAdd 64 availableRing sizeOfVirtQueueAvail
    let last ← checkedSub stop 1
    let usedRing ← checkedAdd 64 (last &&& bitNot 64 (virtioPageSize - 1)) virtioPageSize
    pure (.ok {
      descriptors := queue
      avail := availableRing
      used := usedRing
      freeBitmap := List.replicate (numberOfDescriptors / 8) 0xFF#8 }, b)

variable (self : VirtioBlk)

/-- The loops of `allocate_descriptor` : the first bit that is set. -/
def findFree : List (BitVec 8) → Option ℕ
  | [] => none
  | c :: cs =>
    match (List.range 8).find? (c.getLsbD ·) with
    | some bit => some bit
    | none => (findFree cs).map (· + 8)

/-- `allocate_descriptor`. -/
def allocateDescriptor : Option (ℕ × VirtioBlk) :=
  (findFree self.freeBitmap).map fun index => (index, { self with
    freeBitmap := self.freeBitmap.modify (index / 8) (· &&& ~~~(1#8 <<< (index % 8))) })

/-- `free_descriptor`. -/
def freeDescriptor (index : ℕ) : Exec VirtioBlk := do
  assert (index < numberOfDescriptors)
  pure { self with
    freeBitmap := self.freeBitmap.modify (index / 8) (· ||| (1#8 <<< (index &&& (2 ^ 3 - 1)))) }

/-- The address of a descriptor. -/
def descriptor (index : ℕ) : ℕ :=
  self.descriptors + sizeOfVirtQueueDesc * index

/-- The request on the stack, with its status. -/
def storeRequest (op : BlkOperation) (b : BlkBoard σ) : BlkBoard σ :=
  let b := b.guestStore vm op.virtioBlkReq 4 (if op.isWrite then virtioBlkTypeOut else virtioBlkTypeIn)
  let b := b.guestStore vm (op.virtioBlkReq + 4) 4 0
  b.guestStore vm (op.virtioBlkReq + 8) 8 (op.blockAddress >>> 9)

/-- The fields of a descriptor but the last. -/
def storeDescriptor (index address length flags : ℕ) (b : BlkBoard σ) : BlkBoard σ :=
  let b := b.guestStore vm (self.descriptor index) 8 address
  let b := b.guestStore vm (self.descriptor index + 8) 4 length
  b.guestStore vm (self.descriptor index + 12) 2 flags

def storeNext (index next : ℕ) (b : BlkBoard σ) : BlkBoard σ :=
  b.guestStore vm (self.descriptor index + 14) 2 next

/-- The entry of the available ring. -/
def publish (firstIdx : ℕ) (b : BlkBoard σ) : Exec (BlkBoard σ) := do
  let idx := b.guestLoad vm (self.avail + 2) 2
  let b := b.guestStore vm (self.avail + 4 + 2 * (idx % numberOfDescriptors)) 2 firstIdx
  let idx ← checkedAdd 16 (b.guestLoad vm (self.avail + 2) 2) 1
  pure (b.guestStore vm (self.avail + 2) 2 idx)

/-- The loop that waits for the status byte. -/
def waitStep (address : ℕ) (b : BlkBoard σ) : Exec (Iter (BlkBoard σ) (Except Unit Unit × BlkBoard σ)) :=
  let s := b.guestLoad vm address 1
  if s ≠ 0xFF then
    if s = virtioBlkSOk then .ok (.done (.ok (), b)) else .ok (.done (.error (), b))
  else .ok (.next b)

/-- `operation_sync`. -/
def operationSync (op : BlkOperation) (b : BlkBoard σ) :
    Exec (Except Unit Unit × VirtioBlk × BlkBoard σ) := do
  if op.blockAddress &&& (2 ^ 9 - 1) ≠ 0 ∨ op.length &&& (2 ^ 9 - 1) ≠ 0 then
    return (.error (), self, b)
  let b := storeRequest vm op b
  match self.allocateDescriptor with
  | none => pure (.error (), self, b)
  | some (firstIdx, self) =>
    let b := self.storeDescriptor vm firstIdx op.virtioBlkReq sizeOfVirtioBlkReq
      virtQueueDescFlagsNext b
    match self.allocateDescriptor with
    | none => pure (.error (), self, b)
    | some (secondIdx, self) =>
      let flags := if op.isWrite then virtQueueDescFlagsNext
        else virtQueueDescFlagsNext ||| virtQueueDescFlagsWrite
      let b := self.storeDescriptor vm secondIdx op.bufferAddress (op.length % 2 ^ 32) flags b
      let b := self.storeNext vm firstIdx secondIdx b
      let b := b.guestStore vm op.status 1 0xFF
      match self.allocateDescriptor with
      | none => pure (.error (), self, b)
      | some (thirdIdx, self) =>
        let b := self.storeDescriptor vm thirdIdx op.status 1 virtQueueDescFlagsWrite b
        let b := self.storeNext vm secondIdx thirdIdx b
        let b ← self.publish vm firstIdx b
        let b ← b.writeRegister v pages vm virtioMmioQueueNotify 0
        let (result, b) ← loop (waitStep vm op.status) Fat32.maxIterations b
        let self ← self.freeDescriptor firstIdx
        let self ← self.freeDescriptor secondIdx
        let self ← self.freeDescriptor thirdIdx
        pure (result, self, b)

/-- A sequence of calls of `operation_sync`. -/
def operations : VirtioBlk → List BlkOperation → BlkBoard σ →
    Exec (List (Except Unit Unit) × VirtioBlk × BlkBoard σ)
  | self, [], b => .ok ([], self, b)
  | self, op :: ops, b => do
    let (result, self, b) ← self.operationSync v pages vm op b
    let (results, self, b) ← operations self ops b
    pure (result :: results, self, b)

end VirtioBlk

end MiniVisor
