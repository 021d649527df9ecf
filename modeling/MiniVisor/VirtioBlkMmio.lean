import MiniVisor.Fat32
import MiniVisor.Vm

/-!
# The emulated block device

`mmio/virtio_blk.rs` gives the guest a disk whose content is a file. The guest puts a descriptor
table and two rings into its memory, tells the device where they are, and writes requests into them.
A write to `QUEUE_NOTIFY` makes the device go through the new entries of the available ring
(`operation`) : it follows the chain of descriptors, transfers each buffer from or to the file,
writes a status byte and an entry of the used ring.

Pointers are addresses of the host, and zero is the null pointer. What the device reads and writes
is recorded in the `Memory`, and `BlkEnv` also records the calls of `Fat32::read` and `Fat32::write`
and the interrupts. -/

namespace MiniVisor

open Machine

/-! ## Layouts of `drivers/virtio.rs` -/

def virtioMmioMagic : ℕ := 0x000
def virtioMmioMagicValue : ℕ := 0x74726976
def virtioMmioVersion : ℕ := 0x04
def virtioMmioDeviceId : ℕ := 0x008
def virtioMmioVendorId : ℕ := 0x00c
def virtioMmioDeviceFeatures : ℕ := 0x010
def virtioMmioDriverFeatures : ℕ := 0x020
def virtioMmioGuestPageSize : ℕ := 0x028
def virtioMmioQueueSel : ℕ := 0x030
def virtioMmioQueueNumMax : ℕ := 0x034
def virtioMmioQueueNum : ℕ := 0x038
def virtioMmioQueuePfn : ℕ := 0x040
def virtioMmioQueueReady : ℕ := 0x044
def virtioMmioQueueNotify : ℕ := 0x050
def virtioMmioInterruptStatus : ℕ := 0x060
def virtioMmioInterruptAck : ℕ := 0x064
def virtioMmioStatus : ℕ := 0x070
def virtioConfigOffset : ℕ := 0x100
def virtQueueDescFlagsNext : ℕ := 1
def virtQueueDescFlagsWrite : ℕ := 1 <<< 1
def numberOfDescriptors : ℕ := 64
def virtioPageShift : ℕ := 12
def virtioPageSize : ℕ := 1 <<< virtioPageShift
def virtioBlkTypeIn : ℕ := 0
def virtioBlkTypeOut : ℕ := 1
def virtioBlkSOk : ℕ := 0
def virtioBlkSIoerr : ℕ := 1
def virtioBlkIntId : ℕ := 40

/-- The sizes of `VirtQueueDesc`, `VirtQueueUsedElement` and `VirtioBlkReq`, and of the two fields
in front of a ring. -/
def sizeOfVirtQueueDesc : ℕ := 16
def sizeOfVirtQueueUsedElement : ℕ := 8
def sizeOfVirtioBlkReq : ℕ := 16
def sizeOfRingHeader : ℕ := 4

structure VirtQueueDesc where
  address : ℕ
  length : ℕ
  flags : ℕ
  next : ℕ
  deriving DecidableEq, Repr

/-- The descriptor in the memory at `a`. -/
def VirtQueueDesc.ofMemory (m : Memory) (a : ℕ) : VirtQueueDesc :=
  ⟨m.value a 8, m.value (a + 8) 4, m.value (a + 12) 2, m.value (a + 14) 2⟩

/-! ## What the device works on -/

/-- A call of `Fat32::read` or `Fat32::write`, and whether it succeeded. -/
structure FileTransfer where
  isWrite : Bool
  address : ℕ
  offset : ℕ
  size : ℕ
  succeeded : Bool
  deriving DecidableEq, Repr

/-- The host, with the transfers and the interrupts so far, newest first. -/
structure BlkEnv (σ : Type) where
  host : BlockHost σ
  transfers : List FileTransfer
  interrupts : List ℕ

namespace BlkEnv

variable {σ : Type} (env : BlkEnv σ)

def memory : Memory :=
  env.host.memory

def withMemory (m : Memory) : BlkEnv σ :=
  { env with host := { env.host with memory := m } }

/-- The range is read. -/
def touch (address size : ℕ) : BlkEnv σ :=
  env.withMemory (env.memory.touch address size false)

def store (address size value : ℕ) : BlkEnv σ :=
  env.withMemory (env.memory.store address size value)

end BlkEnv

structure VirtioBlkMmio where
  file : FileInfo
  interruptStatus : BitVec 32
  status : BitVec 32
  queueSize : ℕ
  queueReady : Bool
  pageSize : ℕ
  descriptor : ℕ
  availRing : ℕ
  usedRing : ℕ
  lastAvailId : ℕ
  usedId : ℕ

/-- The state of the loop over the descriptors of a request. -/
structure ChainState (σ : Type) where
  descriptor : VirtQueueDesc
  totalSize : ℕ
  status : ℕ
  offset : ℕ
  env : BlkEnv σ

/-- A request whose header is well formed. -/
structure BlkRequest where
  descriptorId : ℕ
  descriptor : VirtQueueDesc
  isWrite : Bool
  offset : ℕ
  deriving DecidableEq, Repr

namespace VirtioBlkMmio

def new (file : FileInfo) : Exec VirtioBlkMmio :=
  if file.fileSize &&& 0x1FF ≠ 0 then .error .assertion
  else .ok {
    file
    interruptStatus := 0
    status := 0
    queueSize := 0
    queueReady := false
    pageSize := 1 <<< 12
    descriptor := 0
    availRing := 0
    usedRing := 0
    lastAvailId := 0
    usedId := 0 }

variable {σ : Type} (v : Fat32) (pages : Pages σ) (vm : VM) (self : VirtioBlkMmio)

/-! ## The rings -/

/-- `get_descriptor`. -/
def getDescriptor (id : ℕ) (env : BlkEnv σ) : Exec (Option VirtQueueDesc × BlkEnv σ) :=
  if self.descriptor ≠ 0 then do
    let index ← checkedMul 64 sizeOfVirtQueueDesc id
    let address ← checkedAdd 64 self.descriptor index
    pure (some (VirtQueueDesc.ofMemory env.memory address), env.touch address sizeOfVirtQueueDesc)
  else pure (none, env)

/-- `get_descriptor_id`. -/
def getDescriptorId (id : ℕ) (env : BlkEnv σ) : Exec (Option ℕ × BlkEnv σ) :=
  if self.availRing ≠ 0 then do
    let ring ← checkedAdd 64 self.availRing sizeOfRingHeader
    let index ← checkedMul 64 2 id
    let address ← checkedAdd 64 ring index
    pure (some (env.memory.value address 2), env.touch address 2)
  else pure (none, env)

/-- `get_next_avail_id`. The ring is dereferenced without a look at the pointer. -/
def getNextAvailId (env : BlkEnv σ) : Exec (Option ℕ × VirtioBlkMmio × BlkEnv σ) :=
  if self.availRing = 0 then .error .nullDeref
  else
    let idx := env.memory.value (self.availRing + 2) 2
    let env := env.touch (self.availRing + 2) 2
    if self.lastAvailId = idx then .ok (none, self, env)
    else do
      let next ← checkedMod self.lastAvailId (self.queueSize % 2 ^ 16)
      let lastAvailId ← checkedAdd 16 self.lastAvailId 1
      pure (some next, { self with lastAvailId }, env)

/-- `write_used`. -/
def writeUsed (id length : ℕ) (env : BlkEnv σ) : Exec (VirtioBlkMmio × BlkEnv σ) := do
  let index ← checkedMod self.usedId (self.queueSize % 2 ^ 16)
  let usedId ← checkedAdd 16 self.usedId 1
  let ring ← checkedAdd 64 self.usedRing sizeOfRingHeader
  let element ← checkedMul 64 sizeOfVirtQueueUsedElement index
  let address ← checkedAdd 64 ring element
  let env := env.store address sizeOfVirtQueueUsedElement (id + length * 2 ^ 32)
  if self.usedRing = 0 then .error .nullDeref
  else pure ({ self with usedId }, env.store (self.usedRing + 2) 2 usedId)

/-! ## Requests -/

/-- The call of `Fat32::read` or `Fat32::write` for one buffer. -/
def transferFile (isWrite : Bool) (address offset size : ℕ) (env : BlkEnv σ) :
    Exec (Bool × BlkEnv σ) := do
  let (r, host) ← if isWrite then v.write self.file address offset size env.host
    else v.read pages self.file address offset size env.host
  let succeeded := r.toBool
  pure (succeeded, { env with
    host, transfers := ⟨isWrite, address, offset, size, succeeded⟩ :: env.transfers })

/-- One iteration of the loop over the descriptors of a request, which ends with `false` at a
descriptor that cannot be read. -/
def chainStep (isWrite : Bool) (s : ChainState σ) : Exec (Iter (ChainState σ) (Bool × ChainState σ)) := do
  match ← self.getDescriptor s.descriptor.next s.env with
  | (none, env) => pure (.done (false, { s with env }))
  | (some descriptor, env) =>
    if descriptor.flags &&& virtQueueDescFlagsNext = 0 then
      pure (.done (true, { s with descriptor, env }))
    else
      let totalSize ← checkedAdd 32 s.totalSize descriptor.length
      match ← vm.getPhysicalAddress descriptor.address with
      | none => pure (.next { s with descriptor, totalSize, status := virtioBlkSIoerr, env })
      | some address =>
        let (succeeded, env) ←
          self.transferFile v pages isWrite address s.offset descriptor.length env
        let status := if succeeded then s.status else virtioBlkSIoerr
        let offset ← checkedAdd 64 s.offset descriptor.length
        pure (.next ⟨descriptor, totalSize, status, offset, env⟩)

/-- The header of the request at entry `id` of the available ring, `none` if it is malformed. -/
def parseRequest (id : ℕ) (env : BlkEnv σ) : Exec (Option BlkRequest × BlkEnv σ) := do
  match ← self.getDescriptorId id env with
  | (none, env) => pure (none, env)
  | (some descriptorId, env) =>
    match ← self.getDescriptor descriptorId env with
    | (none, env) => pure (none, env)
    | (some descriptor, env) =>
      if descriptor.length ≠ sizeOfVirtioBlkReq then pure (none, env)
      else
        match ← vm.getPhysicalAddress descriptor.address with
        | none => pure (none, env)
        | some blkReq =>
          let reqType := env.memory.value blkReq 4
          let env := env.touch blkReq 4
          let sector := env.memory.value (blkReq + 8) 8
          let env := env.touch (blkReq + 8) 8
          let offset := (sector <<< 9) % 2 ^ 64
          if descriptor.flags &&& virtQueueDescFlagsNext = 0 then pure (none, env)
          else pure (some ⟨descriptorId, descriptor, reqType == virtioBlkTypeOut, offset⟩, env)

/-- The status byte and the entry of the used ring. -/
def finishRequest (descriptorId : ℕ) (s : ChainState σ) : Exec (VirtioBlkMmio × BlkEnv σ) := do
  match ← vm.getPhysicalAddress s.descriptor.address with
  | some address =>
    let env := s.env.store address 1 s.status
    let totalSize ← checkedAdd 32 s.totalSize s.descriptor.length
    self.writeUsed descriptorId totalSize env
  | none => self.writeUsed descriptorId s.totalSize s.env

/-- One iteration of `operation`, which ends with `false` at a request that is malformed. -/
def operationStep (s : VirtioBlkMmio × BlkEnv σ) :
    Exec (Iter (VirtioBlkMmio × BlkEnv σ) (Bool × VirtioBlkMmio × BlkEnv σ)) := do
  match ← s.1.getNextAvailId s.2 with
  | (none, self, env) => pure (.done (true, self, env))
  | (some id, self, env) =>
    match ← self.parseRequest vm id env with
    | (none, env) => pure (.done (false, self, env))
    | (some request, env) =>
      match ← loop (self.chainStep v pages vm request.isWrite) Fat32.maxIterations
          ⟨request.descriptor, 0, virtioBlkSOk, request.offset, env⟩ with
      | (false, chain) => pure (.done (false, self, chain.env))
      | (true, chain) => do
        let s ← self.finishRequest vm request.descriptorId chain
        pure (.next s)

/-- `operation`. The counter of 16 bits bounds the iterations. -/
def operation (env : BlkEnv σ) : Exec (VirtioBlkMmio × BlkEnv σ) := do
  match ← loop (operationStep v pages vm) (2 ^ 16 + 1) (self, env) with
  | (false, self, env) => pure (self, env)
  | (true, self, env) => pure ({ self with interruptStatus := self.interruptStatus ||| 1#32 },
      { env with interrupts := virtioBlkIntId :: env.interrupts })

/-! ## Registers -/

/-- `<VirtioBlkMmio as MmioHandler>::read`. -/
def read (offset : ℕ) : Exec ℕ :=
  if offset = virtioMmioMagic then pure virtioMmioMagicValue
  else if offset = virtioMmioVersion then pure 0x01
  else if offset = virtioMmioDeviceId then pure 0x02
  else if offset = virtioMmioVendorId then pure 0x554d4551
  else if offset = virtioMmioDeviceFeatures then pure 0x00
  else if offset = virtioMmioQueueNumMax then pure 1024
  else if offset = virtioMmioQueueReady then pure self.queueReady.toNat
  else if offset = virtioMmioQueuePfn then checkedDiv self.descriptor self.pageSize
  else if offset = virtioMmioInterruptStatus then pure self.interruptStatus.toNat
  else if offset = virtioMmioStatus then pure self.status.toNat
  else if virtioConfigOffset ≤ offset ∧ offset - virtioConfigOffset < 8 then
    pure ((self.file.fileSize >>> 9) >>> ((offset - virtioConfigOffset) * 8))
  else pure 0

/-- The two rings behind the descriptor table, as the writes of `QUEUE_NUM` and `QUEUE_PFN` compute
them. -/
def setRings : Exec VirtioBlkMmio := do
  let table ← checkedMul 64 sizeOfVirtQueueDesc self.queueSize
  let availRing ← checkedAdd 64 self.descriptor table
  let entries ← checkedAdd 64 3 self.queueSize
  let size ← checkedMul 64 2 entries
  let stop ← checkedAdd 64 availRing size
  let last ← checkedSub stop 1
  let mask ← checkedSub self.pageSize 1
  let usedRing ← checkedAdd 64 (last &&& bitNot 64 mask) self.pageSize
  pure { self with availRing, usedRing }

/-- `<VirtioBlkMmio as MmioHandler>::write`. -/
def write (offset value : ℕ) (env : BlkEnv σ) : Exec (VirtioBlkMmio × BlkEnv σ) := do
  if offset = virtioMmioGuestPageSize then
    pure ({ self with pageSize := value }, env)
  else if offset = virtioMmioQueueNum then
    pure (← setRings { self with queueSize := value }, env)
  else if offset = virtioMmioQueuePfn then
    match ← vm.getPhysicalAddress (← checkedMul 64 value self.pageSize) with
    | none => pure (self, env)
    | some address => pure (← setRings { self with descriptor := address }, env)
  else if offset = virtioMmioQueueNotify then
    if value = 0 then self.operation v pages vm env else pure (self, env)
  else if offset = virtioMmioInterruptAck then
    pure ({ self with interruptStatus := self.interruptStatus &&& ~~~(BitVec.ofNat 32 value) }, env)
  else if offset = virtioMmioStatus then
    if value = 0 then
      pure ({ self with
        queueSize := 0
        queueReady := false
        pageSize := 1 <<< 12
        interruptStatus := 0
        status := 0
        descriptor := 0
        availRing := 0
        usedRing := 0
        lastAvailId := 0
        usedId := 0 }, env)
    else pure ({ self with status := BitVec.ofNat 32 value }, env)
  else pure (self, env)

end VirtioBlkMmio

end MiniVisor
