import MiniVisor.VirtioBlkDriver
import MiniVisor.VirtioBlkQueue

/-!
# The device serves a request of the driver

The driver puts a request into three descriptors and an entry of the available ring. `Published` is
the memory after that, as the device finds it, and `operation_published` says that the device serves
exactly this request : one transfer of the file, the status byte, one entry of the used ring. -/

namespace MiniVisor

open Machine

/-! ## Where things are -/

/-- The RAM of the guest and the queue in it. -/
structure QueuePlaced (vm : VM) (queue : ℕ) : Prop where
  wellFormed : vm.WellFormed
  virtualAligned : vm.ramVirtualBaseAddress % 4096 = 0
  physicalAligned : vm.ramPhysicalBaseAddress % 4096 = 0
  physicalPos : 0 < vm.ramPhysicalBaseAddress
  virtualLe : vm.ramVirtualBaseAddress + vm.ramSize ≤ 2 ^ 44
  aligned : queue % 4096 = 0
  start : vm.ramVirtualBaseAddress ≤ queue
  stop : queue + 8192 ≤ vm.ramVirtualBaseAddress + vm.ramSize

/-- A range of addresses is in the RAM of the guest. -/
structure InRam (vm : VM) (a n : ℕ) : Prop where
  start : vm.ramVirtualBaseAddress ≤ a
  lt : a < vm.ramVirtualBaseAddress + vm.ramSize
  stop : a + n ≤ vm.ramVirtualBaseAddress + vm.ramSize

/-- Two ranges do not meet. -/
def Apart (a n b m : ℕ) : Prop :=
  a + n ≤ b ∨ b + m ≤ a

/-- An operation of whole blocks inside of the file, with its buffer, its request and its status in
the RAM, apart from each other and from the queue. -/
structure OperationPlaced (vm : VM) (queue : ℕ) (file : FileInfo) (op : BlkOperation) : Prop where
  blockAddress : op.blockAddress % 512 = 0
  length : op.length % 512 = 0
  inFile : op.blockAddress + op.length ≤ file.fileSize
  buffer : InRam vm op.bufferAddress op.length
  request : InRam vm op.virtioBlkReq 16
  status : InRam vm op.status 1
  bufferQueue : Apart op.bufferAddress op.length queue 8192
  bufferRequest : Apart op.bufferAddress op.length op.virtioBlkReq 16
  bufferStatus : Apart op.bufferAddress op.length op.status 1
  requestQueue : Apart op.virtioBlkReq 16 queue 8192
  requestStatus : Apart op.virtioBlkReq 16 op.status 1
  statusQueue : Apart op.status 1 queue 8192

theorem InRam.getPhysicalAddress {vm : VM} (hvm : vm.WellFormed) {a n : ℕ} (h : InRam vm a n) :
    vm.getPhysicalAddress a = .ok (some (vm.physical a)) := by
  rw [hvm.getPhysicalAddress, if_pos ⟨h.start, h.lt⟩]
  rfl

theorem InRam.physical_add {vm : VM} {a n : ℕ} (h : InRam vm a n) (k : ℕ) :
    vm.physical (a + k) = vm.physical a + k := by
  have := h.start
  unfold VM.physical
  omega

/-- Ranges that do not meet in the guest do not meet in the host. -/
theorem Apart.physical {vm : VM} {a n b m : ℕ} (h : Apart a n b m) (ha : InRam vm a n)
    (hb : InRam vm b m) : Apart (vm.physical a) n (vm.physical b) m := by
  have := ha.start
  have := hb.start
  unfold Apart VM.physical at *
  omega

/-- Where a range of the guest is in the host. -/
theorem InRam.physical {vm : VM} {a n : ℕ} (h : InRam vm a n) :
    vm.ramPhysicalBaseAddress ≤ vm.physical a ∧
      vm.physical a + n ≤ vm.ramPhysicalBaseAddress + vm.ramSize := by
  have := h.start
  have := h.stop
  unfold VM.physical
  omega

theorem QueuePlaced.inRam {vm : VM} {queue : ℕ} (h : QueuePlaced vm queue) : InRam vm queue 8192 :=
  ⟨h.start, lt_of_lt_of_le (by omega) h.stop, h.stop⟩

/-! ## The device -/

/-- The flags of the descriptor of the buffer. -/
def BlkOperation.flags (op : BlkOperation) : ℕ :=
  if op.isWrite then 1 else 3

/-- The transfer that an operation stands for. -/
def BlkOperation.transfer (vm : VM) (op : BlkOperation) (succeeded : Bool) : FileTransfer :=
  ⟨op.isWrite, vm.physical op.bufferAddress, op.blockAddress, op.length, succeeded⟩

/-- The device has the rings of the queue. -/
structure RingsAt (vm : VM) (queue : ℕ) (file : FileInfo) (device : VirtioBlkMmio) : Prop where
  file : device.file = file
  queueSize : device.queueSize = 64
  descriptor : device.descriptor = vm.physical queue
  availRing : device.availRing = vm.physical queue + 1024
  usedRing : device.usedRing = vm.physical queue + 4096

/-- The device has served `n` requests of the queue. -/
structure DeviceAt (vm : VM) (queue : ℕ) (file : FileInfo) (n : ℕ) (device : VirtioBlkMmio) : Prop
    extends RingsAt vm queue file device where
  lastAvailId : device.lastAvailId = n
  usedId : device.usedId = n

/-- The memory in which an operation is the next request, the `n`-th one. -/
structure Published (vm : VM) (queue n : ℕ) (op : BlkOperation) (m : Memory) : Prop where
  idx : m.value (vm.physical queue + 1024 + 2) 2 = n + 1
  entry : m.value (vm.physical queue + 1024 + 4 + 2 * (n % 64)) 2 = 0
  request : VirtQueueDesc.ofMemory m (vm.physical queue + 16 * 0) = ⟨op.virtioBlkReq, 16, 1, 1⟩
  data : VirtQueueDesc.ofMemory m (vm.physical queue + 16 * 1) =
    ⟨op.bufferAddress, op.length, op.flags, 2⟩
  status : ∃ next, VirtQueueDesc.ofMemory m (vm.physical queue + 16 * 2) = ⟨op.status, 1, 2, next⟩
  reqType : m.value (vm.physical op.virtioBlkReq) 4 = if op.isWrite then 1 else 0
  sector : m.value (vm.physical op.virtioBlkReq + 8) 8 = op.blockAddress >>> 9

section Device

variable {σ : Type} {v : Fat32} {pages : Pages σ} {vm : VM} {queue n : ℕ} {file : FileInfo}
  {op : BlkOperation} {device : VirtioBlkMmio} {env : BlkEnv σ}

/-- What the device reads is as it was. -/
theorem Published.congr {m m' : Memory} (h : Published vm queue n op m)
    (hq : QueuePlaced vm queue) (hop : OperationPlaced vm queue file op)
    (hbytes : ∀ a, vm.ramPhysicalBaseAddress ≤ a → a < vm.ramPhysicalBaseAddress + vm.ramSize →
      a < vm.physical op.bufferAddress ∨ vm.physical op.bufferAddress + op.length ≤ a →
      m'.bytes a = m.bytes a) : Published vm queue n op m' := by
  obtain ⟨hqs, hqe⟩ := hq.inRam.physical
  obtain ⟨hrs, hre⟩ := hop.request.physical
  have hbq := hop.bufferQueue.physical hop.buffer hq.inRam
  have hbr := hop.bufferRequest.physical hop.buffer hop.request
  unfold Apart at hbq hbr
  have hqueue : ∀ a, vm.physical queue ≤ a → a < vm.physical queue + 8192 → m'.bytes a = m.bytes a :=
    fun a ha ha' => hbytes a (by omega) (by omega) (by omega)
  have hrequest : ∀ a, vm.physical op.virtioBlkReq ≤ a → a < vm.physical op.virtioBlkReq + 16 →
      m'.bytes a = m.bytes a :=
    fun a ha ha' => hbytes a (by omega) (by omega) (by omega)
  have hn : n % 64 < 64 := Nat.mod_lt n (by decide)
  have hdesc : ∀ i, i < 64 → VirtQueueDesc.ofMemory m' (vm.physical queue + 16 * i) =
      VirtQueueDesc.ofMemory m (vm.physical queue + 16 * i) := fun i hi =>
    VirtQueueDesc.ofMemory_congr fun x hx hx' => hqueue x (by omega) (by omega)
  have hvalue : ∀ a k, vm.physical queue ≤ a → a + k ≤ vm.physical queue + 8192 →
      m'.value a k = m.value a k := fun a k ha ha' =>
    Memory.value_congr fun x hx hx' => hqueue x (by omega) (by omega)
  have hheader : ∀ a k, vm.physical op.virtioBlkReq ≤ a → a + k ≤ vm.physical op.virtioBlkReq + 16 →
      m'.value a k = m.value a k := fun a k ha ha' =>
    Memory.value_congr fun x hx hx' => hrequest x (by omega) (by omega)
  constructor
  · rw [hvalue _ _ (by omega) (by omega), h.idx]
  · rw [hvalue _ _ (by omega) (by omega), h.entry]
  · rw [hdesc 0 (by decide), h.request]
  · rw [hdesc 1 (by decide), h.data]
  · rw [hdesc 2 (by decide)]
    exact h.status
  · rw [hheader _ _ (by omega) (by omega), h.reqType]
  · rw [hheader _ _ (by omega) (by omega), h.sector]

theorem RingsAt.queueSize_mod (hd : RingsAt vm queue file device) : device.queueSize % 2 ^ 16 = 64 := by
  rw [hd.queueSize]
  decide

theorem RingsAt.descriptor_pos (hd : RingsAt vm queue file device) (hq : QueuePlaced vm queue) :
    0 < device.descriptor ∧ device.descriptor + 8192 ≤ 2 ^ 64 := by
  have hpos := hq.physicalPos
  have hle := hq.wellFormed.physical
  obtain ⟨hqs, hqe⟩ := hq.inRam.physical
  rw [hd.descriptor]
  omega

/-- A descriptor of the queue is read. -/
theorem getDescriptor_at (hd : RingsAt vm queue file device) (hq : QueuePlaced vm queue) {i : ℕ}
    (hi : i < 64) : device.getDescriptor i env =
      .ok (some (VirtQueueDesc.ofMemory env.memory (vm.physical queue + 16 * i)),
        env.touch (vm.physical queue + 16 * i) 16) := by
  obtain ⟨hpos, hlt⟩ := hd.descriptor_pos hq
  rw [VirtioBlkMmio.getDescriptor_eq (by omega) (by omega), hd.descriptor]

/-- The header of the request. -/
theorem parseRequest_published (hd : RingsAt vm queue file device)
    (hq : QueuePlaced vm queue) (hop : OperationPlaced vm queue file op)
    (hsize : file.fileSize < 2 ^ 32) (h : Published vm queue n op env.memory) :
    ∃ env', device.parseRequest vm (n % 64) env = .ok (some ⟨0, ⟨op.virtioBlkReq, 16, 1, 1⟩,
        op.isWrite, op.blockAddress⟩, env') ∧
      env'.memory.bytes = env.memory.bytes ∧ env'.host.pages = env.host.pages ∧
      env'.transfers = env.transfers := by
  obtain ⟨hpos, hlt⟩ := hd.descriptor_pos hq
  have hn : n % 64 < 64 := Nat.mod_lt n (by decide)
  have havail : device.availRing = device.descriptor + 1024 := by rw [hd.availRing, hd.descriptor]
  have hid : device.getDescriptorId (n % 64) env =
      .ok (some 0, env.touch (vm.physical queue + 1024 + 4 + 2 * (n % 64)) 2) := by
    rw [VirtioBlkMmio.getDescriptorId_eq (by omega) (by omega), hd.availRing, h.entry]
  have hoffset : ((op.blockAddress >>> 9) <<< 9) % 2 ^ 64 = op.blockAddress := by
    have := hop.blockAddress
    have := hop.inFile
    rw [Nat.shiftRight_eq_div_pow, Nat.shiftLeft_eq]
    omega
  have htype : ((if op.isWrite then 1 else 0) == virtioBlkTypeOut) = op.isWrite := by
    cases op.isWrite <;> rfl
  simp only [VirtioBlkMmio.parseRequest, hid, Exec.ok_bind, getDescriptor_at hd hq (show 0 < 64 by decide),
    BlkEnv.ofMemory_touch, h.request, hop.request.getPhysicalAddress hq.wellFormed, BlkEnv.value_touch,
    h.reqType, h.sector, hoffset, htype]
  exact ⟨_, rfl, rfl, rfl, rfl⟩

/-- The descriptor of the buffer. -/
theorem chainStep_data (hd : RingsAt vm queue file device) (hq : QueuePlaced vm queue)
    (hop : OperationPlaced vm queue file op) (hsize : file.fileSize < 2 ^ 32) (hg : v.Geometry)
    (hp : pages.Outside vm) (h : Published vm queue n op env.memory)
    (hio : VirtioBlkMmio.IoFits v pages env.host.pages file op.isWrite
      (vm.physical op.bufferAddress) op.blockAddress op.length) :
    ∃ succeeded env', device.chainStep v pages vm op.isWrite
        ⟨⟨op.virtioBlkReq, 16, 1, 1⟩, 0, virtioBlkSOk, op.blockAddress, env⟩ =
        .ok (.next ⟨⟨op.bufferAddress, op.length, op.flags, 2⟩, op.length,
          if succeeded then virtioBlkSOk else virtioBlkSIoerr, op.blockAddress + op.length, env'⟩) ∧
      env'.transfers = op.transfer vm succeeded :: env.transfers ∧
      ∀ a, vm.ramPhysicalBaseAddress ≤ a → a < vm.ramPhysicalBaseAddress + vm.ramSize →
        a < vm.physical op.bufferAddress ∨ vm.physical op.bufferAddress + op.length ≤ a →
        env'.memory.bytes a = env.memory.bytes a := by
  have hfile := hop.inFile
  have hflags : ¬op.flags &&& virtQueueDescFlagsNext = 0 := by
    unfold BlkOperation.flags
    split_ifs <;> decide
  have hio' : VirtioBlkMmio.IoFits v pages (env.touch (vm.physical queue + 16 * 1) 16).host.pages
      device.file op.isWrite (vm.physical op.bufferAddress) op.blockAddress op.length := by
    rw [hd.file]
    exact hio
  obtain ⟨succeeded, env', htransfer, hlog, hbytes⟩ := VirtioBlkMmio.transferFile_spec hg hp hio'
  refine ⟨succeeded, env', ?_, hlog, hbytes⟩
  simp only [VirtioBlkMmio.chainStep, getDescriptor_at hd hq (show 1 < 64 by decide), Exec.ok_bind,
    h.data, if_neg hflags, checkedAdd_of_lt (show 0 + op.length < 2 ^ 32 by omega),
    hop.buffer.getPhysicalAddress hq.wellFormed, htransfer,
    checkedAdd_of_lt (show op.blockAddress + op.length < 2 ^ 64 by omega), Nat.zero_add]
  rfl

/-- The descriptor of the status ends the chain. -/
theorem chainStep_status (hd : RingsAt vm queue file device) (hq : QueuePlaced vm queue)
    (h : Published vm queue n op env.memory) {s : ChainState σ} (hs : s.env = env)
    (hnext : s.descriptor.next = 2) : ∃ next, device.chainStep v pages vm op.isWrite s =
      .ok (.done (true, { s with
        descriptor := ⟨op.status, 1, 2, next⟩
        env := env.touch (vm.physical queue + 16 * 2) 16 })) := by
  obtain ⟨next, hstatus⟩ := h.status
  refine ⟨next, ?_⟩
  simp only [VirtioBlkMmio.chainStep, hnext, hs, getDescriptor_at hd hq (show 2 < 64 by decide),
    Exec.ok_bind, hstatus]
  rfl

/-- The status byte, an entry of the used ring, and its index. -/
theorem finishRequest_at (hd : RingsAt vm queue file device) (hused : device.usedId = n)
    (hq : QueuePlaced vm queue) (hop : OperationPlaced vm queue file op)
    (hsize : file.fileSize < 2 ^ 32) (hn : n < 65535) {next status offset : ℕ} :
    device.finishRequest vm 0 ⟨⟨op.status, 1, 2, next⟩, op.length, status, offset, env⟩ =
      .ok ({ device with usedId := n + 1 },
        ((env.store (vm.physical op.status) 1 status).store
          (vm.physical queue + 4096 + 4 + 8 * (n % 64)) 8 (0 + (op.length + 1) * 2 ^ 32)).store
          (vm.physical queue + 4096 + 2) 2 (n + 1)) := by
  obtain ⟨hpos, hlt⟩ := hd.descriptor_pos hq
  have hfile := hop.inFile
  have hmod : n % 64 < 64 := Nat.mod_lt n (by decide)
  have hlength := hop.length
  have hdesc := hd.descriptor
  have hring : device.usedRing ≠ 0 := by
    rw [hd.usedRing]
    omega
  simp only [VirtioBlkMmio.finishRequest, hop.status.getPhysicalAddress hq.wellFormed, Exec.ok_bind,
    checkedAdd_of_lt (show op.length + 1 < 2 ^ 32 by omega)]
  rw [VirtioBlkMmio.writeUsed_eq hring, hd.queueSize_mod, hd.usedRing, hused]
  · rw [hd.queueSize_mod]
    decide
  · omega
  · rw [hd.queueSize_mod, hd.usedRing, hused]
    omega

/-- What a request leaves in the memory : its status, and the index that the driver wrote. -/
theorem finishRequest_values (hq : QueuePlaced vm queue) (hop : OperationPlaced vm queue file op)
    (h : Published vm queue n op env.memory) {status : ℕ} (hstatus : status < 256) (element idx : ℕ) :
    (((env.store (vm.physical op.status) 1 status).store (vm.physical queue + 4096 + 4 + 8 * (n % 64)) 8
        element).store (vm.physical queue + 4096 + 2) 2 idx).memory.value (vm.physical op.status) 1 =
      status ∧
    (((env.store (vm.physical op.status) 1 status).store (vm.physical queue + 4096 + 4 + 8 * (n % 64)) 8
        element).store (vm.physical queue + 4096 + 2) 2 idx).memory.value
        (vm.physical queue + 1024 + 2) 2 = n + 1 := by
  have hmod : n % 64 < 64 := Nat.mod_lt n (by decide)
  have hsq := hop.statusQueue.physical hop.status hq.inRam
  unfold Apart at hsq
  simp only [BlkEnv.memory_store]
  constructor
  · rw [Memory.value_store_of_disjoint _ (by omega), Memory.value_store_of_disjoint _ (by omega),
      Memory.value_store_self hstatus]
  · rw [Memory.value_store_of_disjoint _ (by omega), Memory.value_store_of_disjoint _ (by omega),
      Memory.value_store_of_disjoint _ (by omega), h.idx]

/-- One iteration of `operation` serves the request. -/
theorem operationStep_published (hd : DeviceAt vm queue file n device) (hq : QueuePlaced vm queue)
    (hop : OperationPlaced vm queue file op) (hsize : file.fileSize < 2 ^ 32) (hn : n < 65535)
    (hg : v.Geometry) (hp : pages.Outside vm) (h : Published vm queue n op env.memory)
    (hio : VirtioBlkMmio.IoFits v pages env.host.pages file op.isWrite
      (vm.physical op.bufferAddress) op.blockAddress op.length) :
    ∃ succeeded env', VirtioBlkMmio.operationStep v pages vm (device, env) =
        .ok (.next ({ device with lastAvailId := n + 1, usedId := n + 1 }, env')) ∧
      env'.transfers = op.transfer vm succeeded :: env.transfers ∧
      env'.memory.value (vm.physical op.status) 1 =
        (if succeeded then virtioBlkSOk else virtioBlkSIoerr) ∧
      env'.memory.value (vm.physical queue + 1024 + 2) 2 = n + 1 := by
  obtain ⟨hpos, hlt⟩ := hd.descriptor_pos hq
  have hdesc := hd.descriptor
  -- The device counts the request first.
  have hnext : device.getNextAvailId env = .ok (some (n % 64), { device with lastAvailId := n + 1 },
      env.touch (vm.physical queue + 1024 + 2) 2) := by
    rw [VirtioBlkMmio.getNextAvailId_some, hd.queueSize_mod, hd.availRing, hd.lastAvailId]
    · rw [hd.availRing]
      omega
    · rw [hd.availRing, hd.lastAvailId, h.idx]
      omega
    · rw [hd.queueSize_mod]
      decide
    · rw [hd.lastAvailId]
      omega
  set device₁ : VirtioBlkMmio := { device with lastAvailId := n + 1 } with hdevice₁
  have hd₁ : RingsAt vm queue file device₁ :=
    ⟨hd.file, hd.queueSize, hd.descriptor, hd.availRing, hd.usedRing⟩
  have hsame : ∀ {m : Memory}, m.bytes = env.memory.bytes → Published vm queue n op m :=
    fun hm => h.congr hq hop fun a _ _ _ => congrFun hm a
  obtain ⟨env₂, hparse, hbytes₂, hpages₂, htransfers₂⟩ := parseRequest_published hd₁ hq hop hsize
    (hsame (m := (env.touch (vm.physical queue + 1024 + 2) 2).memory) rfl)
  obtain ⟨succeeded, env₃, hdata, hlog, hbytes₃⟩ := chainStep_data hd₁ hq hop hsize hg hp
    (hsame hbytes₂) (hpages₂ ▸ hio)
  have h₃ : Published vm queue n op env₃.memory := (hsame hbytes₂).congr hq hop hbytes₃
  set status := if succeeded then virtioBlkSOk else virtioBlkSIoerr with hstatus
  have hlt' : status < 256 := by
    rw [hstatus]
    split_ifs <;> decide
  obtain ⟨next, hlast⟩ : ∃ next, device₁.chainStep v pages vm op.isWrite
      ⟨⟨op.bufferAddress, op.length, op.flags, 2⟩, op.length, status, op.blockAddress + op.length, env₃⟩ =
      .ok (.done (true, ⟨⟨op.status, 1, 2, next⟩, op.length, status, op.blockAddress + op.length,
        env₃.touch (vm.physical queue + 16 * 2) 16⟩)) := chainStep_status hd₁ hq h₃ rfl rfl
  have hchain := loop_next_done hdata hlast (show 1 < Fat32.maxIterations by decide)
  have h₄ : Published vm queue n op (env₃.touch (vm.physical queue + 16 * 2) 16).memory :=
    h₃.congr hq hop fun _ _ _ _ => rfl
  obtain ⟨hvalue, hidx⟩ := finishRequest_values hq hop h₄ hlt' (0 + (op.length + 1) * 2 ^ 32) (n + 1)
  refine ⟨succeeded, _, ?_, ?_, hvalue, hidx⟩
  · simp only [VirtioBlkMmio.operationStep, hnext, Exec.ok_bind, hparse, hchain,
      finishRequest_at hd₁ hd.usedId hq hop hsize hn]
    rfl
  · simp only [BlkEnv.transfers_store, BlkEnv.transfers_touch, hlog, htransfers₂]

/-- The next iteration finds no request. -/
theorem operationStep_empty (hd : DeviceAt vm queue file n device) (hq : QueuePlaced vm queue)
    (hidx : env.memory.value (vm.physical queue + 1024 + 2) 2 = n) :
    VirtioBlkMmio.operationStep v pages vm (device, env) =
      .ok (.done (true, device, env.touch (vm.physical queue + 1024 + 2) 2)) := by
  have hpos := hd.descriptor_pos hq
  have havail : device.availRing ≠ 0 := by
    rw [hd.availRing]
    omega
  have hnone := VirtioBlkMmio.getNextAvailId_none havail
    (by rw [hd.availRing, hd.lastAvailId, hidx])
  simp only [VirtioBlkMmio.operationStep, hnone, hd.availRing]
  rfl

/-- A request is served : one transfer of the file, the status of the request, and the next entry of
the used ring. -/
theorem operation_published (hd : DeviceAt vm queue file n device) (hq : QueuePlaced vm queue)
    (hop : OperationPlaced vm queue file op) (hsize : file.fileSize < 2 ^ 32) (hn : n < 65535)
    (hg : v.Geometry) (hp : pages.Outside vm) (h : Published vm queue n op env.memory)
    (hio : VirtioBlkMmio.IoFits v pages env.host.pages file op.isWrite
      (vm.physical op.bufferAddress) op.blockAddress op.length) :
    ∃ succeeded device' env', device.operation v pages vm env = .ok (device', env') ∧
      DeviceAt vm queue file (n + 1) device' ∧
      env'.transfers = op.transfer vm succeeded :: env.transfers ∧
      env'.memory.value (vm.physical op.status) 1 =
        (if succeeded then virtioBlkSOk else virtioBlkSIoerr) ∧
      env'.memory.value (vm.physical queue + 1024 + 2) 2 = n + 1 := by
  obtain ⟨succeeded, env₁, hserve, hlog, hvalue, hidx⟩ :=
    operationStep_published hd hq hop hsize hn hg hp h hio
  have hd₁ : DeviceAt vm queue file (n + 1) { device with lastAvailId := n + 1, usedId := n + 1 } :=
    ⟨⟨hd.file, hd.queueSize, hd.descriptor, hd.availRing, hd.usedRing⟩, rfl, rfl⟩
  have hloop := loop_next_done hserve (operationStep_empty hd₁ hq hidx)
    (show 1 < 2 ^ 16 + 1 by decide)
  have hoperation : device.operation v pages vm env = .ok ({ device with
        lastAvailId := n + 1
        usedId := n + 1
        interruptStatus := device.interruptStatus ||| 1#32 },
      { env₁.touch (vm.physical queue + 1024 + 2) 2 with
        interrupts := virtioBlkIntId :: env₁.interrupts }) := by
    rw [VirtioBlkMmio.operation, hloop]
    rfl
  refine ⟨succeeded, _, _, hoperation, ?_, hlog, ?_, ?_⟩
  · exact ⟨⟨hd.file, hd.queueSize, hd.descriptor, hd.availRing, hd.usedRing⟩, rfl, rfl⟩
  · exact (BlkEnv.value_touch ..).trans hvalue
  · exact (BlkEnv.value_touch ..).trans hidx

end Device

end MiniVisor
