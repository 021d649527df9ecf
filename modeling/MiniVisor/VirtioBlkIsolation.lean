import MiniVisor.Fat32Isolation
import MiniVisor.VirtioBlkAnswers

/-!
# What a guest can make the device read and write

The device translates the first address of a header or a buffer, and checks nothing behind it : not
the length, not the rings, whose place follows from the size that the guest has written, and not the
index of a descriptor. So the guest can make it read and write what follows the RAM.

`writes_isolated` says what is enough : if every range that the device computes is inside of the RAM
(`OperationInside`), then all that it reads and writes is, apart from the pages that `Fat32::read`
allocates for itself. For a buffer this is about the whole sectors that are transferred
(`ReadWithin`, `WriteWithin`).

A notification that stops at an overflow check has read and written before. `StepPasses` are the
memories that an iteration over the available ring leaves behind each of its accesses, so that the
result is also about a notification that does not return; `operation_passes` says that what a
notification that returns leaves is one of them. -/

namespace MiniVisor

open Machine

namespace VM

variable (vm : VM)

/-- The bytes of the host that are the RAM of the guest. -/
def ramBytes : Set ℕ :=
  Set.Ico vm.ramPhysicalBaseAddress (vm.ramPhysicalBaseAddress + vm.ramSize)

/-- The range is inside of the RAM. -/
def Holds (address size : ℕ) : Prop :=
  vm.ramPhysicalBaseAddress ≤ address ∧ address + size ≤ vm.ramPhysicalBaseAddress + vm.ramSize

instance (address size : ℕ) : Decidable (vm.Holds address size) :=
  inferInstanceAs (Decidable (_ ∧ _))

/-- What is left of the RAM behind an address. -/
def room (address : ℕ) : ℕ :=
  vm.ramPhysicalBaseAddress + vm.ramSize - address

variable {vm}

theorem Holds.subset {address size : ℕ} (h : vm.Holds address size) :
    Set.Ico address (address + size) ⊆ vm.ramBytes :=
  Set.Ico_subset_Ico h.1 h.2

/-- A part of the range. -/
theorem Holds.mono {address size a n : ℕ} (h : vm.Holds address size) (ha : address ≤ a)
    (hn : a + n ≤ address + size) : vm.Holds a n :=
  ⟨h.1.trans ha, hn.trans h.2⟩

/-- A translated address, up to the end of the RAM. -/
theorem Contains.holds_room {a : ℕ} (h : vm.Contains a) :
    0 < vm.room (vm.physical a) ∧ vm.Holds (vm.physical a) (vm.room (vm.physical a)) := by
  obtain ⟨hle, hlt⟩ := h
  unfold Holds room physical
  omega

end VM

/-! ## The condition -/

namespace VirtioBlkMmio

variable {σ : Type} (v : Fat32) (pages : Pages σ) (vm : VM) (self : VirtioBlkMmio)

/-- The transfer of a buffer stays in front of `limit`. -/
def TransferWithin (isWrite : Bool) (offset size limit : ℕ) (p : σ) : Prop :=
  match isWrite with
  | true => v.WriteWithin self.file offset size limit
  | false => v.ReadWithin pages p self.file offset size limit

/-- The head descriptor and the header of a request. -/
def HeaderInside (env : BlkEnv σ) (head : ℕ) : Prop :=
  let header := VirtQueueDesc.ofMemory env.memory (self.descriptor + sizeOfVirtQueueDesc * head)
  self.descriptor ≠ 0 → vm.Holds (self.descriptor + sizeOfVirtQueueDesc * head) sizeOfVirtQueueDesc ∧
    (header.length = sizeOfVirtioBlkReq → vm.Contains header.address →
      vm.Holds (vm.physical header.address) sizeOfVirtioBlkReq)

/-- The next descriptor of a request, and its buffer. -/
def ChainInside (isWrite : Bool) (s : ChainState σ) : Prop :=
  let d := self.nextDescriptor s
  vm.Holds (self.descriptor + sizeOfVirtQueueDesc * s.descriptor.next) sizeOfVirtQueueDesc ∧
    (d.flags &&& virtQueueDescFlagsNext ≠ 0 → vm.Contains d.address →
      self.TransferWithin v pages isWrite s.offset d.length (vm.room (vm.physical d.address))
        s.env.host.pages)

/-- The next element of the used ring, and its index. -/
def UsedInside : Prop :=
  vm.Holds self.usedSlot sizeOfVirtQueueUsedElement ∧ vm.Holds (self.usedRing + 2) 2

/-- Everything that is read and written for the next request. -/
def RequestInside (s : VirtioBlkMmio × BlkEnv σ) : Prop :=
  vm.Holds (s.1.availRing + 2) 2 ∧ (Waiting s →
    vm.Holds (s.1.availRing + sizeOfRingHeader + 2 * (s.1.lastAvailId % (s.1.queueSize % 2 ^ 16))) 2 ∧
    s.1.HeaderInside vm s.2 (nextHead s) ∧
    (s.1.HeaderFormed vm s.2 (nextHead s) → s.1.UsedInside vm ∧
      ∀ id self env₁ request env, s.1.getNextAvailId s.2 = .ok (some id, self, env₁) →
        self.parseRequest vm id env₁ = .ok (some request, env) →
        ∀ t, Reaches (self.chainStep v pages vm request.isWrite) (chainStart request env) t →
          self.ChainInside v pages vm request.isWrite t))

/-- Everything that is read and written for a notification. -/
def OperationInside (env : BlkEnv σ) : Prop :=
  ∀ s, Reaches (operationStep v pages vm) (self, env) s → RequestInside v pages vm s

/-! ## The way of a notification -/

/-- The memories that the transfer of a buffer passes through. -/
def TransferPasses (isWrite : Bool) (address offset size : ℕ) (env : BlkEnv σ) (m : Memory) : Prop :=
  match isWrite with
  | true => v.WritePasses self.file address offset size env.host m
  | false => v.ReadPasses pages self.file address offset size env.host m

/-- The memories that an iteration over the available ring passes through, one behind each access or
transfer. The next access is not made if the iteration traps before. -/
inductive StepPasses (s : VirtioBlkMmio × BlkEnv σ) : Memory → Prop
  | start : StepPasses s s.2.memory
  | index (hnull : s.1.availRing ≠ 0) : StepPasses s (s.2.touch (s.1.availRing + 2) 2).memory
  | entry {self : VirtioBlkMmio} {env env' : BlkEnv σ} {id : ℕ} {r : Option ℕ}
      (hid : s.1.getNextAvailId s.2 = .ok (some id, self, env))
      (hentry : self.getDescriptorId id env = .ok (r, env')) : StepPasses s env'.memory
  | head {self : VirtioBlkMmio} {env env₁ env' : BlkEnv σ} {id descriptorId : ℕ} {r : Option VirtQueueDesc}
      (hid : s.1.getNextAvailId s.2 = .ok (some id, self, env))
      (hentry : self.getDescriptorId id env = .ok (some descriptorId, env₁))
      (hhead : self.getDescriptor descriptorId env₁ = .ok (r, env')) : StepPasses s env'.memory
  | header {self : VirtioBlkMmio} {env env' : BlkEnv σ} {id : ℕ} {r : Option BlkRequest}
      (hid : s.1.getNextAvailId s.2 = .ok (some id, self, env))
      (hparse : self.parseRequest vm id env = .ok (r, env')) : StepPasses s env'.memory
  | chain {self : VirtioBlkMmio} {request : BlkRequest} {t : ChainState σ}
      (ht : ChainReaches v pages vm self s request t) : StepPasses s t.env.memory
  | descriptor {self : VirtioBlkMmio} {request : BlkRequest} {t : ChainState σ} {env' : BlkEnv σ}
      {r : Option VirtQueueDesc} (ht : ChainReaches v pages vm self s request t)
      (hd : self.getDescriptor t.descriptor.next t.env = .ok (r, env')) : StepPasses s env'.memory
  | buffer {self : VirtioBlkMmio} {request : BlkRequest} {t : ChainState σ} {env' : BlkEnv σ}
      {d : VirtQueueDesc} {address : ℕ} {m : Memory} (ht : ChainReaches v pages vm self s request t)
      (hd : self.getDescriptor t.descriptor.next t.env = .ok (some d, env'))
      (hflags : d.flags &&& virtQueueDescFlagsNext ≠ 0)
      (haddress : vm.getPhysicalAddress d.address = .ok (some address))
      (hm : self.TransferPasses v pages request.isWrite address t.offset d.length env' m) : StepPasses s m
  | status {self : VirtioBlkMmio} {request : BlkRequest} {t chain : ChainState σ} {address : ℕ}
      (ht : ChainReaches v pages vm self s request t)
      (hdone : self.chainStep v pages vm request.isWrite t = .ok (.done (true, chain)))
      (haddress : vm.getPhysicalAddress chain.descriptor.address = .ok (some address)) :
      StepPasses s (chain.env.store address 1 chain.status).memory
  | element {self : VirtioBlkMmio} {request : BlkRequest} {t chain : ChainState σ} {env : BlkEnv σ}
      {value : ℕ} (ht : ChainReaches v pages vm self s request t)
      (hdone : self.chainStep v pages vm request.isWrite t = .ok (.done (true, chain)))
      (henv : env = chain.env ∨ ∃ address, vm.getPhysicalAddress chain.descriptor.address = .ok
        (some address) ∧
        env = chain.env.store address 1 chain.status) :
      StepPasses s (env.store self.usedSlot sizeOfVirtQueueUsedElement value).memory
  | answer {self self' : VirtioBlkMmio} {request : BlkRequest} {t chain : ChainState σ} {env' : BlkEnv σ}
      (ht : ChainReaches v pages vm self s request t)
      (hdone : self.chainStep v pages vm request.isWrite t = .ok (.done (true, chain)))
      (hfinish : self.finishRequest vm request.descriptorId chain = .ok (self', env')) :
      StepPasses s env'.memory

/-- The memories that a notification passes through, also one that traps. -/
def OperationPasses (env : BlkEnv σ) (m : Memory) : Prop :=
  ∃ s, Reaches (operationStep v pages vm) (self, env) s ∧ StepPasses v pages vm s m

/-! ## The functions of the device -/

variable {v pages vm self} {self' : VirtioBlkMmio} {env env' : BlkEnv σ}

theorem confined_touch (env : BlkEnv σ) {address size : ℕ} (h : vm.Holds address size) :
    env.memory.Confined vm.ramBytes (env.touch address size).memory :=
  Memory.confined_touch fun _ => h.subset

theorem confined_store {address size value : ℕ} (h : vm.Holds address size) :
    env.memory.Confined vm.ramBytes (env.store address size value).memory := by
  rw [BlkEnv.memory_store]
  exact Memory.confined_fill fun _ => h.subset

theorem getDescriptorId_inv {id : ℕ} {r : Option ℕ} (havail : self.availRing ≠ 0)
    (h : self.getDescriptorId id env = .ok (r, env')) :
    r = some (env.memory.value (self.availRing + sizeOfRingHeader + 2 * id) 2) ∧
      env' = env.touch (self.availRing + sizeOfRingHeader + 2 * id) 2 := by
  unfold getDescriptorId at h
  rw [if_pos havail] at h
  simp only [Exec.bind_eq_ok, checkedMul_eq_ok, checkedAdd_eq_ok] at h
  obtain ⟨ring, ⟨-, rfl⟩, index, ⟨-, rfl⟩, address, ⟨-, rfl⟩, h⟩ := h
  cases h
  exact ⟨rfl, rfl⟩

/-- A descriptor is read. -/
theorem getDescriptor_confined {id : ℕ} {r : Option VirtQueueDesc}
    (hhead : self.descriptor ≠ 0 → vm.Holds (self.descriptor + sizeOfVirtQueueDesc * id)
      sizeOfVirtQueueDesc)
    (h : self.getDescriptor id env = .ok (r, env')) : env.memory.Confined vm.ramBytes env'.memory := by
  obtain ⟨-, -, rfl⟩ | ⟨h0, -, rfl⟩ := getDescriptor_eq_ok h
  · exact .refl _ _
  · exact confined_touch env (hhead h0)

/-- The header of a request is read. -/
theorem parseRequest_confined {id : ℕ} {r : Option BlkRequest} (havail : self.availRing ≠ 0)
    (hentry : vm.Holds (self.availRing + sizeOfRingHeader + 2 * id) 2)
    (hheader : self.HeaderInside vm env (env.memory.value (self.availRing + sizeOfRingHeader + 2 * id) 2))
    (h : self.parseRequest vm id env = .ok (r, env')) :
    env.memory.Confined vm.ramBytes env'.memory := by
  obtain ⟨h0, -⟩ | ⟨-, -, rfl⟩ | ⟨hnull, -, -, rfl⟩ | ⟨hnull, hlength, hin, rfl, -⟩ :=
    parseRequest_cases h
  · exact absurd h0 havail
  · exact confined_touch env hentry
  · exact (confined_touch env hentry).trans (confined_touch _ (hheader hnull).1)
  · obtain ⟨hhead, hreq⟩ := hheader hnull
    have hblkReq := hreq hlength hin
    rw [sizeOfVirtioBlkReq] at hblkReq
    exact (((confined_touch env hentry).trans (confined_touch _ hhead)).trans
      (confined_touch _ (hblkReq.mono le_rfl (by omega)))).trans
        (confined_touch _ (hblkReq.mono (by omega) le_rfl))

/-- A transfer that returns has passed through what it leaves. -/
theorem transferFile_passes {isWrite : Bool} {address offset size : ℕ} {succeeded : Bool}
    (h : self.transferFile v pages isWrite address offset size env = .ok (succeeded, env')) :
    env'.memory = env.memory ∨ self.TransferPasses v pages isWrite address offset size env
      env'.memory := by
  cases isWrite with
  | true =>
    rw [transferFile, if_pos rfl, Exec.bind_eq_ok] at h
    obtain ⟨⟨r, host⟩, hr, h⟩ := h
    cases h
    exact (Fat32.write_passes hr).imp_left (congrArg BlockHost.memory)
  | false =>
    rw [transferFile, if_neg (by decide), Exec.bind_eq_ok] at h
    obtain ⟨⟨r, host⟩, hr, h⟩ := h
    cases h
    exact (Fat32.read_passes hr).imp_left (congrArg BlockHost.memory)

/-- A buffer is read or written up to its end in the RAM. -/
theorem TransferPasses.confined (hg : v.Geometry) {isWrite : Bool} {a offset size : ℕ} {m : Memory}
    (ha : vm.Contains a)
    (hwithin : self.TransferWithin v pages isWrite offset size (vm.room (vm.physical a)) env.host.pages)
    (h : self.TransferPasses v pages isWrite (vm.physical a) offset size env m) :
    env.memory.Confined vm.ramBytes m := by
  have hsub := ha.holds_room.2.subset
  cases isWrite with
  | true => exact (Fat32.WritePasses.confined hg hwithin h).mono hsub
  | false => exact (Fat32.ReadPasses.confined hg hwithin h).mono hsub

/-- One iteration of the loop over the descriptors. -/
theorem chainStep_confined (hg : v.Geometry) {isWrite : Bool} {t : ChainState σ}
    {o : Iter (ChainState σ) (Bool × ChainState σ)} (h0 : self.descriptor ≠ 0)
    (hin : self.ChainInside v pages vm isWrite t) (h : self.chainStep v pages vm isWrite t = .ok o) :
    (∃ t', o = .next t' ∧ t.env.memory.Confined vm.ramBytes t'.env.memory) ∨
      ∃ r, o = .done r ∧ t.env.memory.Confined vm.ramBytes r.2.env.memory := by
  obtain ⟨hdesc, hbuffer⟩ := hin
  have htouch := confined_touch t.env hdesc
  cases o with
  | next t' =>
    refine .inl ⟨t', rfl, ?_⟩
    obtain ⟨-, hflags, -, ⟨-, rfl⟩ | ⟨hcontains, succeeded, env, htransfer, rfl⟩⟩ := chainStep_eq_next h
    · exact htouch
    · refine htouch.trans ?_
      obtain heq | hpasses := transferFile_passes htransfer
      · rw [heq]
        exact .refl _ _
      · exact hpasses.confined hg hcontains (hbuffer hflags hcontains)
  | done r =>
    refine .inr ⟨r, rfl, ?_⟩
    obtain ⟨hnull, -⟩ | ⟨-, -, rfl⟩ := chainStep_eq_done h
    · exact absurd hnull h0
    · exact htouch

/-- The states that the loop over the descriptors comes to. -/
theorem reaches_confined (hg : v.Geometry) {isWrite : Bool} {t u : ChainState σ} (h0 : self.descriptor ≠ 0)
    (hin : ∀ u, Reaches (self.chainStep v pages vm isWrite) t u → self.ChainInside v pages vm isWrite u)
    (h : Reaches (self.chainStep v pages vm isWrite) t u) :
    t.env.memory.Confined vm.ramBytes u.env.memory := by
  induction h with
  | refl => exact .refl _ _
  | tail hreached hnext ih =>
    obtain ⟨u', ho, hnew⟩ | ⟨r, ho, -⟩ := chainStep_confined hg h0 (hin _ hreached) hnext
    · cases ho
      exact ih.trans hnew
    · cases ho

theorem writeUsed_confined {id length : ℕ} (hin : self.UsedInside vm)
    (h : self.writeUsed id length env = .ok (self', env')) :
    env.memory.Confined vm.ramBytes env'.memory := by
  obtain ⟨-, -, rfl⟩ := writeUsed_eq_store h
  exact (confined_store hin.1).trans (confined_store hin.2)

/-- The status byte is in the RAM, as its address is. -/
theorem finishRequest_confined {id : ℕ} {t : ChainState σ} (hin : self.UsedInside vm)
    (h : self.finishRequest vm id t = .ok (self', env')) :
    t.env.memory.Confined vm.ramBytes env'.memory := by
  obtain ⟨-, h⟩ | ⟨hcontains, -, h⟩ := finishRequest_cases h
  · exact writeUsed_confined hin h
  · obtain ⟨hpos, hroom⟩ := hcontains.holds_room
    exact (confined_store (hroom.mono le_rfl (by omega))).trans (writeUsed_confined hin h)

/-! ## A notification -/

section Iteration

variable {s : VirtioBlkMmio × BlkEnv σ} {request : BlkRequest} {t chain : ChainState σ} {m : Memory}

/-- An entry of the available ring is taken. -/
theorem taken_inside (hin : RequestInside v pages vm s) {id : ℕ}
    (hid : s.1.getNextAvailId s.2 = .ok (some id, self, env)) :
    self.availRing ≠ 0 ∧ s.2.memory.Confined vm.ramBytes env.memory ∧
      vm.Holds (self.availRing + sizeOfRingHeader + 2 * id) 2 ∧
      self.HeaderInside vm env (env.memory.value (self.availRing + sizeOfRingHeader + 2 * id) 2) ∧
      ∀ request env', self.parseRequest vm id env = .ok (some request, env') →
        self.descriptor ≠ 0 ∧ self.UsedInside vm ∧
          ∀ t, Reaches (self.chainStep v pages vm request.isWrite) (chainStart request env') t →
            self.ChainInside v pages vm request.isWrite t := by
  obtain ⟨device, env₀⟩ := s
  obtain ⟨hidx, hrequest⟩ := hin
  obtain ⟨havail, rfl, ⟨-, hnone, -⟩ | ⟨hwait, hsome, rfl⟩⟩ := getNextAvailId_eq_ok hid
  · cases hnone
  cases hsome
  obtain ⟨hentry, hheader, hrest⟩ := hrequest hwait
  refine ⟨havail, confined_touch env₀ hidx, hentry, fun h0 => ?_, fun request env' hparse => ?_⟩
  · rw [BlkEnv.value_touch, BlkEnv.ofMemory_touch]
    exact hheader h0
  · obtain ⟨-, hnone⟩ | ⟨hformed, -⟩ := parseRequest_eq_ok havail hparse
    · cases hnone
    have h0 := hformed.1
    unfold HeaderFormed at hformed
    rw [BlkEnv.value_touch, BlkEnv.ofMemory_touch] at hformed
    obtain ⟨hused, hchain⟩ := hrest hformed
    exact ⟨h0, hused, hchain _ _ _ _ _ hid hparse⟩

/-- The states of the loop over the descriptors of a request that is taken. -/
theorem ChainReaches.inside (hg : v.Geometry) (hin : RequestInside v pages vm s)
    (h : ChainReaches v pages vm self s request t) : self.descriptor ≠ 0 ∧ self.UsedInside vm ∧
      self.ChainInside v pages vm request.isWrite t ∧ s.2.memory.Confined vm.ramBytes t.env.memory := by
  obtain ⟨id, env₁, env, hid, hparse, hreached⟩ := h
  obtain ⟨havail, htaken, hentry, hheader, hrest⟩ := taken_inside hin hid
  obtain ⟨h0, hused, hchain⟩ := hrest request env hparse
  exact ⟨h0, hused, hchain t hreached,
    (htaken.trans (parseRequest_confined havail hentry hheader hparse)).trans
    (reaches_confined hg h0 hchain hreached)⟩

/-- The end of the loop over the descriptors. -/
theorem ChainReaches.confined_done (hg : v.Geometry) (hin : RequestInside v pages vm s)
    (h : ChainReaches v pages vm self s request t) {b : Bool}
    (hdone : self.chainStep v pages vm request.isWrite t = .ok (.done (b, chain))) :
    s.2.memory.Confined vm.ramBytes chain.env.memory := by
  obtain ⟨h0, -, hchain, hconfined⟩ := h.inside hg hin
  obtain ⟨t', ho, -⟩ | ⟨r, ho, hnew⟩ := chainStep_confined hg h0 hchain hdone
  · cases ho
  · cases ho
    exact hconfined.trans hnew

theorem confined_status {address : ℕ} (haddress : vm.getPhysicalAddress chain.descriptor.address =
    .ok (some address)) (env : BlkEnv σ) (value : ℕ) :
    env.memory.Confined vm.ramBytes (env.store address 1 value).memory := by
  obtain ⟨hnone, -⟩ | ⟨hsome, hcontains⟩ := VM.contains_of_eq_ok haddress
  · cases hnone
  · cases hsome
    obtain ⟨hpos, hroom⟩ := hcontains.holds_room
    exact confined_store (hroom.mono le_rfl (by omega))

/-- An iteration reads and writes only the RAM on its way. -/
theorem StepPasses.confined (hg : v.Geometry) (hin : RequestInside v pages vm s)
    (h : StepPasses v pages vm s m) : s.2.memory.Confined vm.ramBytes m := by
  cases h with
  | start => exact .refl _ _
  | index => exact confined_touch s.2 hin.1
  | entry hid hentry =>
    obtain ⟨havail, htaken, hholds, -⟩ := taken_inside hin hid
    obtain ⟨-, rfl⟩ := getDescriptorId_inv havail hentry
    exact htaken.trans (confined_touch _ hholds)
  | head hid hentry hhead =>
    obtain ⟨havail, htaken, hholds, hheader, -⟩ := taken_inside hin hid
    obtain ⟨hd, rfl⟩ := getDescriptorId_inv havail hentry
    cases hd
    exact (htaken.trans (confined_touch _ hholds)).trans
      (getDescriptor_confined (fun h0 => (hheader h0).1) hhead)
  | header hid hparse =>
    obtain ⟨havail, htaken, hholds, hheader, -⟩ := taken_inside hin hid
    exact htaken.trans (parseRequest_confined havail hholds hheader hparse)
  | chain ht => exact (ht.inside hg hin).2.2.2
  | descriptor ht hd =>
    obtain ⟨-, -, hchain, hconfined⟩ := ht.inside hg hin
    exact hconfined.trans (getDescriptor_confined (fun _ => hchain.1) hd)
  | buffer ht hd hflags haddress hm =>
    obtain ⟨h0, -, hchain, hconfined⟩ := ht.inside hg hin
    refine (hconfined.trans (getDescriptor_confined (fun _ => hchain.1) hd)).trans ?_
    obtain ⟨hnull, -, -⟩ | ⟨-, hsome, rfl⟩ := getDescriptor_eq_ok hd
    · exact absurd hnull h0
    cases hsome
    obtain ⟨hnone, -⟩ | ⟨hsome, hcontains⟩ := VM.contains_of_eq_ok haddress
    · cases hnone
    · cases hsome
      exact hm.confined hg hcontains (hchain.2 hflags hcontains)
  | status ht hdone haddress =>
    exact (ht.confined_done hg hin hdone).trans (confined_status haddress _ _)
  | element ht hdone henv =>
    have hconfined := ht.confined_done hg hin hdone
    have hslot := (ht.inside hg hin).2.1.1
    obtain rfl | ⟨address, haddress, rfl⟩ := henv
    · exact hconfined.trans (confined_store hslot)
    · exact (hconfined.trans (confined_status haddress _ _)).trans (confined_store hslot)
  | answer ht hdone hfinish =>
    exact (ht.confined_done hg hin hdone).trans (finishRequest_confined (ht.inside hg hin).2.1 hfinish)

/-- The memory behind an iteration. -/
def iterMemory : Iter (VirtioBlkMmio × BlkEnv σ) (Bool × VirtioBlkMmio × BlkEnv σ) → Memory
  | .next s => s.2.memory
  | .done r => r.2.2.memory

/-- An iteration that returns has passed through what it leaves. -/
theorem operationStep_passes {o : Iter (VirtioBlkMmio × BlkEnv σ) (Bool × VirtioBlkMmio × BlkEnv σ)}
    (h : operationStep v pages vm s = .ok o) : StepPasses v pages vm s (iterMemory o) := by
  rw [operationStep, Exec.bind_eq_ok] at h
  obtain ⟨⟨id, self, env⟩, hid, h⟩ := h
  cases id with
  | none =>
    cases h
    obtain ⟨havail, rfl, -⟩ := getNextAvailId_eq_ok hid
    exact .index havail
  | some id =>
    simp only [Exec.bind_eq_ok] at h
    obtain ⟨⟨request, env₁⟩, hparse, h⟩ := h
    cases request with
    | none =>
      cases h
      exact .header hid hparse
    | some request =>
      simp only [Exec.bind_eq_ok] at h
      obtain ⟨⟨complete, chain⟩, hchain, h⟩ := h
      obtain ⟨t, hreached, hdone⟩ := exists_reaches_done hchain
      have ht : ChainReaches v pages vm self s request t := ⟨id, env, env₁, hid, hparse, hreached⟩
      cases complete with
      | false =>
        cases h
        obtain ⟨-, hlast⟩ | ⟨-, -, hlast⟩ := chainStep_eq_done hdone
        · obtain rfl := (Prod.mk.inj hlast).2
          exact .chain ht
        · cases hlast
      | true =>
        simp only [Exec.bind_eq_ok] at h
        obtain ⟨⟨self', env'⟩, hfinish, h⟩ := h
        cases h
        exact .answer ht hdone hfinish

end Iteration

/-- A notification reads and writes only the RAM on its way, whether it returns or not. -/
theorem OperationPasses.confined (hg : v.Geometry) (hin : self.OperationInside v pages vm env) {m : Memory}
    (h : self.OperationPasses v pages vm env m) : env.memory.Confined vm.ramBytes m := by
  obtain ⟨s, hreached, hm⟩ := h
  suffices hs : env.memory.Confined vm.ramBytes s.2.memory from hs.trans (hm.confined hg (hin s hreached))
  clear hm
  induction hreached with
  | refl => exact .refl _ _
  | tail hreached hnext ih => exact ih.trans ((operationStep_passes hnext).confined hg (hin _ hreached))

/-- A notification that returns has passed through what it leaves. -/
theorem operation_passes (h : self.operation v pages vm env = .ok (self', env')) :
    self.OperationPasses v pages vm env env'.memory := by
  rw [operation, Exec.bind_eq_ok] at h
  obtain ⟨⟨complete, self₁, env₁⟩, hloop, h⟩ := h
  obtain ⟨s, hreached, hdone⟩ := exists_reaches_done hloop
  refine ⟨s, hreached, ?_⟩
  have hpassed := operationStep_passes hdone
  cases complete with
  | false =>
    cases h
    exact hpassed
  | true =>
    cases h
    exact hpassed

/-! ## Runs of writes -/

/-- Only a notification reads or writes memory. -/
theorem write_eq_ok {offset value : ℕ} (h : self.write v pages vm offset value env = .ok (self', env')) :
    env' = env ∨ offset = virtioMmioQueueNotify ∧ value = 0 ∧
      self.operation v pages vm env = .ok (self', env') := by
  unfold write at h
  split_ifs at h with h1 h2 h3 h4 h5
  · cases h
    exact .inl rfl
  · rw [Exec.bind_eq_ok] at h
    obtain ⟨rings, -, h⟩ := h
    cases h
    exact .inl rfl
  · simp only [Exec.bind_eq_ok] at h
    obtain ⟨a, -, address, -, h⟩ := h
    cases address with
    | none =>
      cases h
      exact .inl rfl
    | some address =>
      rw [Exec.bind_eq_ok] at h
      obtain ⟨rings, -, h⟩ := h
      cases h
      exact .inl rfl
  · exact .inr ⟨h4, h5, h⟩
  all_goals
    cases h
    exact .inl rfl

/-- The ranges of every notification in a run of register writes are inside of the RAM. Each write has the
host that it finds : the guest may write anything into its memory in between. -/
def WritesInside (v : Fat32) (pages : Pages σ) (vm : VM) : VirtioBlkMmio → List (BlkEnv σ × ℕ × ℕ) → Prop
  | _, [] => True
  | self, (env, offset, value) :: run =>
    (offset = virtioMmioQueueNotify → value = 0 → self.OperationInside v pages vm env) ∧
    ∀ self' env', self.write v pages vm offset value env = .ok (self', env') →
      WritesInside v pages vm self' run

/-- Every write of the run reads and changes only the RAM of the guest, and buffers of the
hypervisor's own : up to every access of a notification, also if it traps behind it, and up to the
return of a write that returns. -/
def WritesIsolated (v : Fat32) (pages : Pages σ) (vm : VM) : VirtioBlkMmio → List (BlkEnv σ × ℕ × ℕ) → Prop
  | _, [] => True
  | self, (env, offset, value) :: run =>
    (offset = virtioMmioQueueNotify → value = 0 → ∀ m, self.OperationPasses v pages vm env m →
      env.memory.Confined vm.ramBytes m) ∧
    ∀ self' env', self.write v pages vm offset value env = .ok (self', env') →
      env.memory.Confined vm.ramBytes env'.memory ∧ WritesIsolated v pages vm self' run

/-- A guest whose requests stay inside of its RAM reaches nothing else. -/
theorem writes_isolated (hg : v.Geometry) : ∀ (run : List (BlkEnv σ × ℕ × ℕ)) (self : VirtioBlkMmio),
    WritesInside v pages vm self run → WritesIsolated v pages vm self run
  | [], _, _ => trivial
  | (env, offset, value) :: run, self, ⟨hnotify, hrest⟩ => by
    refine ⟨fun hoffset hvalue m hm => hm.confined hg (hnotify hoffset hvalue), fun self' env' h => ?_⟩
    refine ⟨?_, writes_isolated hg run self' (hrest self' env' h)⟩
    obtain rfl | ⟨hoffset, hvalue, hoperation⟩ := write_eq_ok h
    · exact .refl _ _
    · exact (operation_passes hoperation).confined hg (hnotify hoffset hvalue)

/-- The only sector of the file is written with one transfer. -/
theorem sector_writeWithin {limit : ℕ} (hlimit : 512 ≤ limit) :
    (Fat32.stepVolume 1 2).WriteWithin ⟨2, 512⟩ 0 512 limit := by
  intro n cluster hn hcluster _
  have hclamp : Fat32.clampLength ⟨2, 512⟩ 0 512 = .ok (some 512) := by decide
  obtain rfl := Option.some.inj (Except.ok.inj (hclamp.symm.trans hn))
  obtain rfl : 2 = cluster := Option.some.inj hcluster
  refine ⟨fun e he => ?_, fun x bytes e hlater hextent => ?_⟩
  · cases he
    exact hlimit
  · exfalso
    clear hextent
    induction hlater with
    | first he hne =>
      cases he
      exact hne rfl
    | next _ _ _ _ ih => exact ih

/-- A notification for two requests, of which the first one writes a sector and the second one reads it. -/
theorem writes_isolated_pair :
    WritesIsolated (Fat32.stepVolume 1 2) fewPages linkedVm (linkedDevice 0)
      [(pairEnv, virtioMmioQueueNotify, 0)] := by
  refine writes_isolated (Fat32.stepVolume_geometry 1 2) _ _ ⟨fun _ _ s hs => ?_, fun _ _ _ => trivial⟩
  obtain ⟨s₁, s₂, r, request, start, last, hstep₁, hstep₂, hdone, hs₁, hs₂, hidx, hone, hread,
    hoffset, hnext, hnext',
    hbuffer, hstatus, hhead, hheader⟩ := pair_second
  obtain rfl | hs := hs.eq_or_reaches hstep₁
  · obtain ⟨request, start, last, hone, hwrite, hoffset, hnext, hnext', hbuffer, hstatus⟩ := pair_first
    refine ⟨by decide, fun _ => ⟨by decide, fun _ => ⟨by decide, fun _ _ => by decide⟩, fun _ =>
      ⟨⟨by decide, by decide⟩, fun id self env₁ request' env hid hparse t ht => ?_⟩⟩⟩
    obtain ⟨rfl, rfl, rfl | rfl⟩ := hone.reaches ⟨id, env₁, env, hid, hparse, ht⟩
    · refine ⟨by rw [hnext]; decide, fun _ _ => ?_⟩
      rw [hbuffer, hwrite, hoffset]
      exact sector_writeWithin (by decide)
    · refine ⟨by rw [hnext']; decide, fun hflags _ => ?_⟩
      rw [hstatus] at hflags
      exact absurd rfl hflags
  obtain rfl | hs := hs.eq_or_reaches hstep₂
  · refine ⟨by rw [hs₁]; decide, fun _ => ⟨by rw [hs₁]; decide, fun _ => ?_, fun _ => ⟨?_, ?_⟩⟩⟩
    · rw [hhead, hheader, hs₁]
      exact ⟨by decide, fun _ _ => by decide⟩
    · rw [hs₁]
      exact ⟨by decide, by decide⟩
    · intro id self env₁ request' env hid hparse t ht
      obtain ⟨rfl, rfl, rfl | rfl⟩ := hone.reaches ⟨id, env₁, env, hid, hparse, ht⟩
      · refine ⟨by rw [hnext]; decide, fun _ _ => ?_⟩
        rw [hbuffer, hread, hoffset]
        exact sector_readWithin _ _ (by decide)
      · refine ⟨by rw [hnext']; decide, fun hflags _ => ?_⟩
        rw [hstatus] at hflags
        exact absurd rfl hflags
  · rw [hs.eq_of_done hdone]
    refine ⟨?_, fun hwait => absurd ?_ hwait⟩
    · rw [hs₂]
      decide
    · rw [hs₂]
      exact hidx.symm

/-- The bytes of a request to read two sectors to the last 512 bytes of the RAM. -/
def escapeBytes (a : ℕ) : BitVec 8 :=
  if a = 0x80001011 then 0xFE#8 else if a = 0x80001012 then 0xFF#8 else if a = 0x80001013 then 0x4F#8
  else if a = 0x80001019 then 4#8 else if a = 0x80001021 then 4#8 else if a = 0x80001023 then 0x40#8
  else if a = 0x80001028 then 1#8 else linkedBytes 3 2 a

/-- A disk full of sevens. -/
def escapeEnv : BlkEnv Unit :=
  ⟨⟨⟨escapeBytes, []⟩, fun _ => 7, ()⟩, [], []⟩

/-- The device with a file of two sectors. -/
def escapeDevice : VirtioBlkMmio :=
  { linkedDevice 0 with file := ⟨2, 1024⟩ }

/-- The second sector is written behind the RAM, which ends at 0x90000000. -/
theorem writes_not_isolated :
    (¬∀ run, WritesIsolated (Fat32.stepVolume 1 3) Fat32.onePage linkedVm escapeDevice run) ∧
      0x90000000 ∉ linkedVm.ramBytes ∧ escapeEnv.memory.bytes 0x90000000 = 0 ∧
      ((escapeDevice.write (Fat32.stepVolume 1 3) Fat32.onePage linkedVm virtioMmioQueueNotify 0
        escapeEnv).toOption.map fun r => r.2.memory.bytes 0x90000000) = some 7 := by
  have hbyte : ((escapeDevice.write (Fat32.stepVolume 1 3) Fat32.onePage linkedVm virtioMmioQueueNotify 0
      escapeEnv).toOption.map fun r => r.2.memory.bytes 0x90000000) = some 7 := by decide +kernel
  have hshared : ((escapeDevice.write (Fat32.stepVolume 1 3) Fat32.onePage linkedVm virtioMmioQueueNotify 0
      escapeEnv).toOption.map fun r => r.2.memory.accesses.any (·.isPrivate)) = some false := by
    decide +kernel
  have hout : 0x90000000 ∉ linkedVm.ramBytes := fun h => absurd h.2 (by decide)
  refine ⟨fun h => ?_, hout, rfl, hbyte⟩
  cases hr : escapeDevice.write (Fat32.stepVolume 1 3) Fat32.onePage linkedVm virtioMmioQueueNotify 0
      escapeEnv with
  | error t =>
    rw [hr] at hbyte
    cases hbyte
  | ok r =>
    obtain ⟨device, env⟩ := r
    rw [hr] at hbyte hshared
    obtain ⟨new, hnew, -, hsame⟩ :=
      ((h [(escapeEnv, virtioMmioQueueNotify, 0)]).2 device env hr).1.accesses
    have hunchanged := hsame 0x90000000 hout fun x hx hprivate => ?_
    · have h7 : env.memory.bytes 0x90000000 = 7 := Option.some.inj hbyte
      rw [h7] at hunchanged
      exact absurd hunchanged (by decide)
    · have hany : env.memory.accesses.any (·.isPrivate) = true :=
        List.any_eq_true.mpr ⟨x, hnew ▸ List.mem_append_left _ hx, hprivate⟩
      cases hany.symm.trans (Option.some.inj hshared)

end VirtioBlkMmio

end MiniVisor
