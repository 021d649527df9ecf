import MiniVisor.VirtioBlkTermination

/-!
# What a guest can do to the arithmetic of the device

The device divides by the queue size and the page size, follows the pointers of its queue and adds
numbers that it reads from the memory of the guest. A run of accesses stops at no trap of the device
exactly when each access is safe in the state it finds (`runBlkAccesses_safe_iff`). For most
accesses that is always so; `RingsSafe` is about the two writes that compute the rings, and
`OperationSafe` about a notification. Traps inside of `Fat32::read` and `Fat32::write`, beyond the
sum of offset and length, depend on the volume and are not part of it. -/

namespace MiniVisor

open Machine

theorem Fat32.safe_clampLength {file : FileInfo} {offset length : ℕ} :
    (clampLength file offset length).Safe ↔ offset + length < 2 ^ 64 := by
  rw [clampLength, Exec.safe_bind, safe_checkedAdd, and_iff_left_iff_imp]
  intro _ stop _
  split_ifs <;> exact Exec.safe_ok _

theorem Fat32.safe_inside {α : Type} (x : Exec α) : (inside x).Safe := by
  cases x with
  | error t => exact Exec.safe_error.mpr (.inr ⟨t, rfl⟩)
  | ok a => exact Exec.safe_ok a

namespace VirtioBlkMmio

variable {σ : Type} (v : Fat32) (pages : Pages σ) (vm : VM) (self : VirtioBlkMmio)

/-! ## The condition -/

/-- The next entry of the available ring can be looked up and counted. -/
def NextAvailSafe (env : BlkEnv σ) : Prop :=
  self.availRing ≠ 0 ∧ (self.lastAvailId ≠ env.memory.value (self.availRing + 2) 2 →
    self.queueSize % 2 ^ 16 ≠ 0 ∧ self.lastAvailId + 1 < 2 ^ 16)

def DescriptorSafe (id : ℕ) : Prop :=
  self.descriptor ≠ 0 → self.descriptor + sizeOfVirtQueueDesc * id < 2 ^ 64

/-- The head of a request can be read. -/
def ParseSafe (id : ℕ) (env : BlkEnv σ) : Prop :=
  self.availRing ≠ 0 → self.availRing + sizeOfRingHeader + 2 * id < 2 ^ 64 ∧
    self.DescriptorSafe (env.memory.value (self.availRing + sizeOfRingHeader + 2 * id) 2)

/-- The next descriptor can be read, its length counted, and the offset moved behind it. -/
def ChainSafe (s : ChainState σ) : Prop :=
  self.DescriptorSafe s.descriptor.next ∧ (self.descriptor ≠ 0 →
    let d := self.nextDescriptor s
    d.flags &&& virtQueueDescFlagsNext ≠ 0 → s.totalSize + d.length < 2 ^ 32 ∧
      (vm.Contains d.address → s.offset + d.length < 2 ^ 64))

/-- The entry of the used ring can be written. -/
def FinishSafe (s : ChainState σ) : Prop :=
  (vm.Contains s.descriptor.address → s.totalSize + s.descriptor.length < 2 ^ 32) ∧
    self.queueSize % 2 ^ 16 ≠ 0 ∧ self.usedId + 1 < 2 ^ 16 ∧ self.usedRing ≠ 0 ∧
    self.usedRing + sizeOfRingHeader +
      sizeOfVirtQueueUsedElement * (self.usedId % (self.queueSize % 2 ^ 16)) < 2 ^ 64

/-- The next request can be served. -/
def RequestSafe (s : VirtioBlkMmio × BlkEnv σ) : Prop :=
  s.1.NextAvailSafe s.2 ∧ ∀ id self env, s.1.getNextAvailId s.2 = .ok (some id, self, env) →
    self.ParseSafe id env ∧ ∀ request env', self.parseRequest vm id env = .ok (some request, env') →
      Throughout (self.chainStep v pages vm request.isWrite) (self.ChainSafe vm) Fat32.maxIterations
        (chainStart request env') ∧
      ∀ chain, loop (self.chainStep v pages vm request.isWrite) Fat32.maxIterations
        (chainStart request env') = .ok (true, chain) → self.FinishSafe vm chain

/-- All requests of a notification can be served. -/
def OperationSafe (env : BlkEnv σ) : Prop :=
  Throughout (operationStep v pages vm) (RequestSafe v pages vm) (2 ^ 16 + 1) (self, env)

/-- The rings behind the descriptor table can be computed. -/
def RingsSafe : Prop :=
  let stop := self.descriptor + sizeOfVirtQueueDesc * self.queueSize + 2 * (3 + self.queueSize)
  self.pageSize ≠ 0 ∧ stop < 2 ^ 64 ∧
    ((stop - 1) &&& bitNot 64 (self.pageSize - 1)) + self.pageSize < 2 ^ 64

/-! ## The functions of the device -/

variable {v pages vm self} {env : BlkEnv σ}

theorem safe_getNextAvailId : (self.getNextAvailId env).Safe ↔ self.NextAvailSafe env := by
  unfold getNextAvailId NextAvailSafe
  dsimp only
  split_ifs with h0 h1
  · simp [Exec.safe_error, h0]
  · simp [h0, h1]
  · simp only [safe_checkedMod_bind, safe_checkedAdd_bind, Exec.pure_eq_ok, Exec.safe_ok, and_true]
    exact ⟨fun h => ⟨h0, fun _ => h⟩, fun h => h.2 h1⟩

theorem safe_getDescriptor {id : ℕ} : (self.getDescriptor id env).Safe ↔ self.DescriptorSafe id := by
  unfold getDescriptor DescriptorSafe
  split_ifs with h
  · simp only [safe_checkedMul_bind, safe_checkedAdd_bind, Exec.pure_eq_ok, Exec.safe_ok, and_true]
    exact ⟨fun ha _ => ha.2, fun ha => ⟨lt_of_le_of_lt (Nat.le_add_left _ _) (ha h), ha h⟩⟩
  · exact iff_of_true (Exec.safe_ok _) fun hd => absurd hd h

/-- After `get_descriptor`. -/
theorem safe_getDescriptor_bind {β : Type} {id : ℕ} {f : Option VirtQueueDesc × BlkEnv σ → Exec β} :
    (self.getDescriptor id env >>= f).Safe ↔ self.DescriptorSafe id ∧
      (self.descriptor = 0 → (f (none, env)).Safe) ∧
      (self.descriptor ≠ 0 → (f (some (VirtQueueDesc.ofMemory env.memory
        (self.descriptor + sizeOfVirtQueueDesc * id)),
        env.touch (self.descriptor + sizeOfVirtQueueDesc * id) sizeOfVirtQueueDesc)).Safe) := by
  rw [Exec.safe_bind, safe_getDescriptor]
  refine and_congr_right fun h => ?_
  by_cases h0 : self.descriptor = 0
  · simp [getDescriptor, h0]
  · rw [getDescriptor_eq h0 (h h0)]
    simp [h0, sizeOfVirtQueueDesc]

/-- A request that is not there, or is malformed, ends the notification. -/
theorem safe_parseRequest (hvm : vm.WellFormed) {id : ℕ} :
    (self.parseRequest vm id env).Safe ↔ self.ParseSafe id env := by
  unfold parseRequest getDescriptorId ParseSafe
  split_ifs with h0
  · simp only [bind_assoc, safe_checkedAdd_bind, safe_checkedMul_bind, Exec.pure_eq_ok, Exec.ok_bind,
      safe_getDescriptor_bind, Exec.safe_ok, implies_true, true_and]
    constructor
    · rintro ⟨-, -, hlt, hd, -⟩ -
      exact ⟨hlt, hd⟩
    · intro h
      obtain ⟨hlt, hd⟩ := h h0
      refine ⟨by omega, by omega, hlt, hd, fun _ => ?_⟩
      rw [Exec.safe_ite]
      refine ⟨fun _ => Exec.safe_ok _, fun _ => ?_⟩
      rw [hvm.safe_getPhysicalAddress_bind]
      refine ⟨fun _ => ?_, fun _ => Exec.safe_ok _⟩
      exact Exec.safe_ite.mpr ⟨fun _ => Exec.safe_ok _, fun _ => Exec.safe_ok _⟩
  · simp [h0]

theorem safe_transferFile {isWrite : Bool} {address offset size : ℕ} :
    (self.transferFile v pages isWrite address offset size env).Safe ↔ offset + size < 2 ^ 64 := by
  have hread : (v.read pages self.file address offset size env.host).Safe ↔ offset + size < 2 ^ 64 := by
    rw [Fat32.read, Exec.safe_bind, Fat32.safe_clampLength, and_iff_left_iff_imp]
    rintro - (_ | length) -
    · exact Exec.safe_ok _
    · exact Fat32.safe_inside _
  have hwrite : (v.write self.file address offset size env.host).Safe ↔ offset + size < 2 ^ 64 := by
    rw [Fat32.write, Exec.safe_bind, Fat32.safe_clampLength, and_iff_left_iff_imp]
    rintro - (_ | length) -
    · exact Exec.safe_ok _
    · exact Fat32.safe_inside _
  unfold transferFile
  cases isWrite
  · simp [Exec.safe_bind, hread]
  · simp [Exec.safe_bind, hwrite]

theorem safe_chainStep (hvm : vm.WellFormed) {isWrite : Bool} {s : ChainState σ} :
    (self.chainStep v pages vm isWrite s).Safe ↔ self.ChainSafe vm s := by
  unfold chainStep ChainSafe
  rw [safe_getDescriptor_bind]
  refine and_congr_right fun hd => ?_
  simp only [Exec.pure_eq_ok, Exec.safe_ok, implies_true, true_and]
  refine imp_congr_right fun h0 => ?_
  change Exec.Safe (if (self.nextDescriptor s).flags &&& virtQueueDescFlagsNext = 0 then _ else _) ↔ _
  rw [Exec.safe_ite, and_iff_right fun _ => Exec.safe_ok _]
  refine imp_congr_right fun hnext => ?_
  rw [safe_checkedAdd_bind, hvm.safe_getPhysicalAddress_bind]
  refine and_congr_right fun _ => ?_
  rw [and_iff_left fun _ => Exec.safe_ok _]
  refine imp_congr_right fun _ => ?_
  rw [Exec.safe_bind, safe_transferFile]
  -- The second sum of the offset and the length is the one that the transfer has computed.
  exact ⟨fun h => h.1, fun hlt => ⟨hlt, fun q _ => safe_checkedAdd_bind.mpr ⟨hlt, Exec.safe_ok _⟩⟩⟩

theorem safe_finishRequest (hvm : vm.WellFormed) {id : ℕ} {s : ChainState σ} :
    (self.finishRequest vm id s).Safe ↔ self.FinishSafe vm s := by
  have hwrite : ∀ length (env : BlkEnv σ), (self.writeUsed id length env).Safe ↔
      self.queueSize % 2 ^ 16 ≠ 0 ∧ self.usedId + 1 < 2 ^ 16 ∧ self.usedRing ≠ 0 ∧
      self.usedRing + sizeOfRingHeader +
        sizeOfVirtQueueUsedElement * (self.usedId % (self.queueSize % 2 ^ 16)) < 2 ^ 64 := by
    intro length env
    unfold writeUsed
    simp only [safe_checkedMod_bind, safe_checkedAdd_bind, safe_checkedMul_bind]
    rw [Exec.safe_ite]
    constructor
    · rintro ⟨hsize, hused, -, -, hlt, hnull, -⟩
      exact ⟨hsize, hused, fun h => absurd (hnull h) (by simp [Exec.safe_error]), hlt⟩
    · rintro ⟨hsize, hused, hnull, hlt⟩
      exact ⟨hsize, hused, by omega, by omega, hlt, fun h => absurd h hnull, fun _ => Exec.safe_ok _⟩
  unfold finishRequest FinishSafe
  rw [hvm.safe_getPhysicalAddress_bind]
  by_cases hc : vm.Contains s.descriptor.address
  · simp [hc, hwrite]
  · simp [hc, hwrite]

/-! ## A notification -/

/-- The loop over the data of a request, and what follows it. -/
theorem safe_chain_bind (hvm : vm.WellFormed) {request : BlkRequest} {β : Type}
    {f : Bool × ChainState σ → Exec β} (hfailed : ∀ chain, (f (false, chain)).Safe)
    (hfinished : ∀ chain, (f (true, chain)).Safe ↔ self.FinishSafe vm chain) :
    (loop (self.chainStep v pages vm request.isWrite) Fat32.maxIterations (chainStart request env)
      >>= f).Safe ↔
      Throughout (self.chainStep v pages vm request.isWrite) (self.ChainSafe vm) Fat32.maxIterations
        (chainStart request env) ∧
      ∀ chain, loop (self.chainStep v pages vm request.isWrite) Fat32.maxIterations
        (chainStart request env) = .ok (true, chain) → self.FinishSafe vm chain := by
  rw [Exec.safe_bind, safe_loop, Throughout.congr fun s => safe_chainStep hvm]
  refine and_congr_right fun _ =>
    ⟨fun h chain hchain => (hfinished chain).mp (h _ hchain), fun h r hr => ?_⟩
  obtain ⟨finished, chain⟩ := r
  cases finished with
  | false => exact hfailed chain
  | true => exact (hfinished chain).mpr (h chain hr)

theorem safe_operationStep (hvm : vm.WellFormed) {s : VirtioBlkMmio × BlkEnv σ} :
    (operationStep v pages vm s).Safe ↔ RequestSafe v pages vm s := by
  unfold operationStep RequestSafe
  rw [Exec.safe_bind, safe_getNextAvailId]
  have hfinish : ∀ {self : VirtioBlkMmio} {id : ℕ} (chain : ChainState σ), Exec.Safe
      (self.finishRequest vm id chain >>= fun s => pure (.next s) :
        Exec (Iter (VirtioBlkMmio × BlkEnv σ) (Bool × VirtioBlkMmio × BlkEnv σ))) ↔
      self.FinishSafe vm chain :=
    fun chain => Exec.safe_bind.trans
      ((and_iff_left fun _ _ => Exec.safe_ok _).trans (safe_finishRequest hvm))
  refine and_congr_right fun _ => ⟨fun h id self env hnext => ?_, fun h q hnext => ?_⟩
  · have hid := Exec.safe_bind.mp (h _ hnext)
    refine ⟨(safe_parseRequest hvm).mp hid.1, fun request env' hr => ?_⟩
    have hchain := hid.2 _ hr
    dsimp only at hchain
    refine Iff.mp (safe_chain_bind hvm ?_ ?_) hchain
    · exact fun chain => Exec.safe_ok _
    · exact hfinish
  · obtain ⟨_ | id, self, env⟩ := q
    · exact Exec.safe_ok _
    · obtain ⟨hparse, hchain⟩ := h id self env hnext
      refine Exec.safe_bind.mpr ⟨(safe_parseRequest hvm).mpr hparse, fun q hr => ?_⟩
      obtain ⟨_ | request, env'⟩ := q
      · exact Exec.safe_ok _
      · dsimp only
        refine Iff.mpr (safe_chain_bind hvm ?_ fun chain => ?_) (hchain request env' hr)
        · exact fun chain => Exec.safe_ok _
        · exact hfinish chain

theorem safe_operation (hvm : vm.WellFormed) :
    (self.operation v pages vm env).Safe ↔ self.OperationSafe v pages vm env := by
  unfold operation OperationSafe
  rw [Exec.safe_bind, safe_loop, Throughout.congr fun s => safe_operationStep hvm]
  refine and_iff_left fun r _ => ?_
  obtain ⟨_ | _, self, env⟩ := r
  · exact Exec.safe_ok _
  · exact Exec.safe_ok _

/-! ## The registers -/

theorem safe_setRings : self.setRings.Safe ↔ self.RingsSafe := by
  unfold setRings RingsSafe
  simp only [safe_checkedMul_bind, safe_checkedAdd_bind, safe_checkedSub_bind, Exec.pure_eq_ok,
    Exec.safe_ok, and_true]
  constructor
  · rintro ⟨-, -, -, -, hstop, -, hpage, hused⟩
    exact ⟨by omega, hstop, hused⟩
  · rintro ⟨hpage, hstop, hused⟩
    exact ⟨by omega, by omega, by omega, by omega, hstop, by omega, by omega, hused⟩

theorem safe_read {offset : ℕ} :
    (self.read offset).Safe ↔ (offset = virtioMmioQueuePfn → self.pageSize ≠ 0) := by
  by_cases h : offset = virtioMmioQueuePfn
  · subst h
    exact safe_checkedDiv.trans ⟨fun hpage _ => hpage, fun hpage => hpage rfl⟩
  · refine iff_of_true ?_ fun h' => absurd h' h
    unfold read
    rw [if_neg h]
    split_ifs <;> exact Exec.safe_ok _

theorem safe_write (hvm : vm.WellFormed) {offset value : ℕ} :
    (self.write v pages vm offset value env).Safe ↔
      (offset = virtioMmioQueueNum → RingsSafe { self with queueSize := value }) ∧
      (offset = virtioMmioQueuePfn → value * self.pageSize < 2 ^ 64 ∧
        (vm.Contains (value * self.pageSize) → RingsSafe { self with
          descriptor := value * self.pageSize - vm.ramVirtualBaseAddress + vm.ramPhysicalBaseAddress })) ∧
      (offset = virtioMmioQueueNotify → value = 0 → self.OperationSafe v pages vm env) := by
  have hrings : ∀ self : VirtioBlkMmio, Exec.Safe
      (do pure (← self.setRings, env) : Exec (VirtioBlkMmio × BlkEnv σ)) ↔ self.RingsSafe :=
    fun self => Exec.safe_bind.trans ((and_iff_left fun _ _ => Exec.safe_ok _).trans safe_setRings)
  by_cases hnum : offset = virtioMmioQueueNum
  · subst hnum
    refine (hrings { self with queueSize := value }).trans
      ⟨fun h => ⟨fun _ => h, ?_, ?_⟩, fun h => h.1 rfl⟩
    · exact fun hc => absurd hc (by decide)
    · exact fun hc => absurd hc (by decide)
  by_cases hpfn : offset = virtioMmioQueuePfn
  · subst hpfn
    unfold write
    rw [if_neg (by decide), if_neg (by decide), if_pos rfl, safe_checkedMul_bind,
      hvm.safe_getPhysicalAddress_bind]
    constructor
    · rintro ⟨hlt, hin, -⟩
      refine ⟨fun hc => absurd hc (by decide), fun _ => ⟨hlt, fun hc => (hrings _).mp (hin hc)⟩,
        fun hc => ?_⟩
      exact absurd hc (by decide)
    · rintro ⟨-, h, -⟩
      exact ⟨(h rfl).1, fun hc => (hrings _).mpr ((h rfl).2 hc), fun _ => Exec.safe_ok _⟩
  refine Iff.trans ?_ ((and_iff_right fun h => absurd h hnum).trans
    (and_iff_right fun h => absurd h hpfn)).symm
  unfold write
  rw [if_neg hnum, if_neg hpfn]
  by_cases hnotify : offset = virtioMmioQueueNotify
  · subst hnotify
    by_cases hvalue : value = 0
    · rw [if_neg (by decide), if_pos rfl, if_pos hvalue, safe_operation hvm]
      exact ⟨fun h _ _ => h, fun h => h rfl hvalue⟩
    · rw [if_neg (by decide), if_pos rfl, if_neg hvalue]
      exact iff_of_true (Exec.safe_ok _) fun _ h => absurd h hvalue
  · refine iff_of_true ?_ fun h => absurd h hnotify
    split_ifs <;> exact Exec.safe_ok _

/-- A guest access to a register. -/
inductive BlkAccess
  | read (offset accessWidth : ℕ)
  | write (offset accessWidth value : ℕ)
  deriving DecidableEq, Repr

namespace BlkAccess

/-- The device after the access. -/
def exec (v : Fat32) (pages : Pages σ) (vm : VM) (env : BlkEnv σ) (self : VirtioBlkMmio) :
    BlkAccess → Exec VirtioBlkMmio
  | .read offset _ => do
    let _ ← self.read offset
    pure self
  | .write offset _ value => do
    let (self, _) ← self.write v pages vm offset value env
    pure self

/-- The access is safe in this state. -/
def Safe (v : Fat32) (pages : Pages σ) (vm : VM) (env : BlkEnv σ) (self : VirtioBlkMmio) :
    BlkAccess → Prop
  | .read offset _ => offset = virtioMmioQueuePfn → self.pageSize ≠ 0
  | .write offset _ value =>
    (offset = virtioMmioQueueNum → RingsSafe { self with queueSize := value }) ∧
    (offset = virtioMmioQueuePfn → value * self.pageSize < 2 ^ 64 ∧
      (vm.Contains (value * self.pageSize) → RingsSafe { self with
        descriptor := value * self.pageSize - vm.ramVirtualBaseAddress + vm.ramPhysicalBaseAddress })) ∧
    (offset = virtioMmioQueueNotify → value = 0 → self.OperationSafe v pages vm env)

theorem safe_exec (hvm : vm.WellFormed) (a : BlkAccess) :
    (a.exec v pages vm env self).Safe ↔ a.Safe v pages vm env self := by
  cases a with
  | read offset accessWidth =>
    exact Exec.safe_bind.trans ((and_iff_left fun _ _ => Exec.safe_ok _).trans safe_read)
  | write offset accessWidth value =>
    exact Exec.safe_bind.trans ((and_iff_left fun _ _ => Exec.safe_ok _).trans (safe_write hvm))

end BlkAccess

/-! ## Runs -/

/-- The device after a run of guest accesses, each with the host it finds : the guest may write
anything into its memory in between. -/
def runBlkAccesses (v : Fat32) (pages : Pages σ) (vm : VM) :
    VirtioBlkMmio → List (BlkEnv σ × BlkAccess) → Exec VirtioBlkMmio
  | self, [] => .ok self
  | self, (env, a) :: run => do
    let self ← a.exec v pages vm env self
    runBlkAccesses v pages vm self run

/-- Every access of the run is safe in the state it finds. -/
def BlkRunSafe (v : Fat32) (pages : Pages σ) (vm : VM) :
    VirtioBlkMmio → List (BlkEnv σ × BlkAccess) → Prop
  | _, [] => True
  | self, (env, a) :: run => a.Safe v pages vm env self ∧
    ∀ self', a.exec v pages vm env self = .ok self' → BlkRunSafe v pages vm self' run

/-- A run of guest accesses stops at no trap of the device exactly when every access is safe in the
state it finds. -/
theorem runBlkAccesses_safe_iff (hvm : vm.WellFormed) : ∀ (run : List (BlkEnv σ × BlkAccess))
    (self : VirtioBlkMmio),
    (runBlkAccesses v pages vm self run).Safe ↔ BlkRunSafe v pages vm self run
  | [], self => iff_of_true (Exec.safe_ok self) trivial
  | (env, a) :: run, self => by
    rw [runBlkAccesses, BlkRunSafe, Exec.safe_bind, a.safe_exec hvm]
    exact and_congr_right fun _ => forall₂_congr fun self' _ => runBlkAccesses_safe_iff hvm run self'

/-- A driver that puts its queue at the second page of the RAM, with one request in it. -/
def linkedRun : List (BlkEnv Unit × BlkAccess) :=
  [(linkedEnv 0 0, .write virtioMmioGuestPageSize 32 4096),
    (linkedEnv 0 0, .write virtioMmioQueueNum 32 64),
    (linkedEnv 0 0, .write virtioMmioQueuePfn 32 0x40001),
    (linkedEnv 0 0, .write virtioMmioQueueNotify 32 0)]

/-- A host whose memory is full of ones. -/
def onesEnv : BlkEnv Unit :=
  ⟨⟨⟨fun _ => 1#8, []⟩, fun _ => 0, ()⟩, [], []⟩

/-- The device that `new` makes for a file of one sector. -/
def blankDevice : VirtioBlkMmio where
  file := ⟨2, 512⟩
  interruptStatus := 0
  status := 0
  queueSize := 0
  queueReady := false
  pageSize := 4096
  descriptor := 0
  availRing := 0
  usedRing := 0
  lastAvailId := 0
  usedId := 0

/-- The request is answered. -/
theorem runBlkAccesses_safe_iff_request :
    new ⟨2, 512⟩ = .ok blankDevice ∧
      (runBlkAccesses (Fat32.stepVolume 1 2) Fat32.onePage linkedVm blankDevice linkedRun).toOption.map
        (·.usedId) = some 1 ∧
      BlkRunSafe (Fat32.stepVolume 1 2) Fat32.onePage linkedVm blankDevice linkedRun := by
  have hrun : (runBlkAccesses (Fat32.stepVolume 1 2) Fat32.onePage linkedVm blankDevice
      linkedRun).toOption.map (·.usedId) = some 1 := by decide +kernel
  refine ⟨rfl, hrun, (runBlkAccesses_safe_iff ⟨by decide, by decide⟩ linkedRun blankDevice).mp ?_⟩
  cases h : runBlkAccesses (Fat32.stepVolume 1 2) Fat32.onePage linkedVm blankDevice linkedRun with
  | error t =>
    rw [h] at hrun
    cases hrun
  | ok device => exact Exec.safe_ok device

set_option maxRecDepth 8000 in
/-- A guest that notifies the device before it has told it of a queue makes it follow a null
pointer. With the page size 0 a read of `QUEUE_PFN` divides by zero, and a write of `QUEUE_NUM` goes
below zero. A queue without a size makes the notification divide by zero. -/
theorem runBlkAccesses_not_safe :
    (¬∀ run : List (BlkEnv Unit × BlkAccess), (runBlkAccesses (Fat32.stepVolume 1 2) Fat32.onePage linkedVm
        blankDevice run).Safe) ∧ linkedVm.WellFormed ∧ new ⟨2, 512⟩ = .ok blankDevice ∧
      runBlkAccesses (Fat32.stepVolume 1 2) Fat32.onePage linkedVm blankDevice
        [(linkedEnv 0 0, .write virtioMmioQueueNotify 32 0)] = .error .nullDeref ∧
      runBlkAccesses (Fat32.stepVolume 1 2) Fat32.onePage linkedVm blankDevice
        [(linkedEnv 0 0, .write virtioMmioGuestPageSize 32 0),
          (linkedEnv 0 0, .read virtioMmioQueuePfn 32)] = .error .divByZero ∧
      runBlkAccesses (Fat32.stepVolume 1 2) Fat32.onePage linkedVm blankDevice
        [(linkedEnv 0 0, .write virtioMmioGuestPageSize 32 0),
          (linkedEnv 0 0, .write virtioMmioQueueNum 32 64)] = .error .overflow ∧
      runBlkAccesses (Fat32.stepVolume 1 2) Fat32.onePage linkedVm blankDevice
        [(onesEnv, .write virtioMmioQueuePfn 32 0x40001),
          (onesEnv, .write virtioMmioQueueNotify 32 0)] = .error .divByZero := by
  have hnull : runBlkAccesses (Fat32.stepVolume 1 2) Fat32.onePage linkedVm blankDevice
      [(linkedEnv 0 0, .write virtioMmioQueueNotify 32 0)] = .error .nullDeref := rfl
  refine ⟨fun h => ?_, ⟨by decide, by decide⟩, rfl, hnull, rfl, rfl, rfl⟩
  have hsafe := h [(linkedEnv 0 0, .write virtioMmioQueueNotify 32 0)]
  rw [hnull, Exec.safe_error] at hsafe
  obtain hfuel | ⟨t, ht⟩ := hsafe
  · cases hfuel
  · cases ht

end VirtioBlkMmio

end MiniVisor
