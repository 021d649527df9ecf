import MiniVisor.Fat32Isolation
import MiniVisor.VirtioBlkTermination

/-!
# Whether every request is answered

`operation` counts an entry of the available ring before it looks at the request, and it returns at
a request whose header is malformed. Such a request is never answered, and the entries behind it
wait for the next notification. An answer can also be lost behind its request : nothing keeps the
buffers of a later request, or its status byte, off the used ring, and a batch of more entries than
the queue has writes over its own elements.

`Takes` is a run of the loop over the available ring with the heads that it has read, in their
order. `Served` says that the used ring has exactly one element for each of them when the
notification returns. `notifications_served_iff` is about runs of notifications whose requests write
nothing to the answers in front of them (`RequestApart`) : each notification serves all requests
that wait exactly when each header it comes to is well formed.

An iteration that goes on has answered the entry that it took (`Answered`), and leaves the elements
of the used ring that were written before (`operationStep_keeps`). -/

namespace MiniVisor

open Machine

namespace VirtioBlkMmio

variable {σ : Type} (v : Fat32) (pages : Pages σ) (vm : VM)

/-- The entry of the available ring that is taken next : the head of a chain of descriptors. -/
def nextHead (s : VirtioBlkMmio × BlkEnv σ) : ℕ :=
  s.2.memory.value (s.1.availRing + sizeOfRingHeader +
    2 * (s.1.lastAvailId % (s.1.queueSize % 2 ^ 16))) 2

/-- There is an entry that was not taken. -/
def Waiting (s : VirtioBlkMmio × BlkEnv σ) : Prop :=
  s.1.lastAvailId ≠ s.2.memory.value (s.1.availRing + 2) 2

/-- Where the next element of the used ring is written. -/
def usedSlot (self : VirtioBlkMmio) : ℕ :=
  self.usedRing + sizeOfRingHeader +
    sizeOfVirtQueueUsedElement * (self.usedId % (self.queueSize % 2 ^ 16))

/-- One entry is taken, and one element with its head is put behind the other elements of the used ring. -/
structure Answered (s s' : VirtioBlkMmio × BlkEnv σ) : Prop where
  waiting : Waiting s
  device : s'.1 = { s.1 with lastAvailId := s.1.lastAvailId + 1, usedId := s.1.usedId + 1 }
  element : ∃ length < 2 ^ 32, s'.2.memory.value s.1.usedSlot sizeOfVirtQueueUsedElement =
    nextHead s + length * 2 ^ 32
  idx : s'.2.memory.value (s.1.usedRing + 2) 2 = s.1.usedId + 1

/-- Where the element with this number is written, counted from the next one. -/
def usedElement (self : VirtioBlkMmio) (k : ℕ) : ℕ :=
  self.usedRing + sizeOfRingHeader +
    sizeOfVirtQueueUsedElement * ((self.usedId + k) % (self.queueSize % 2 ^ 16))

/-- The bytes of the next `n` elements of the used ring. -/
def usedBytes (self : VirtioBlkMmio) (n : ℕ) : Set ℕ :=
  {a | ∃ k < n, a ∈ Set.Ico (self.usedElement k) (self.usedElement k + sizeOfVirtQueueUsedElement)}

/-- The loop over the available ring goes from `start` to `s`, and has taken the entries with these
heads. -/
inductive Takes (start : VirtioBlkMmio × BlkEnv σ) : List ℕ → VirtioBlkMmio × BlkEnv σ → Prop
  | refl : Takes start [] start
  | next {heads : List ℕ} {s s' : VirtioBlkMmio × BlkEnv σ} : Takes start heads s →
      operationStep v pages vm s = .ok (.next s') → Takes start (heads ++ [nextHead s]) s'

/-- The used ring has an element for each of the heads, in their order, each in a place of its own, and its
index counts them. -/
structure Elements (device : VirtioBlkMmio) (m : Memory) (heads : List ℕ) : Prop where
  element : ∀ k (hk : k < heads.length), ∃ length < 2 ^ 32,
    m.value (device.usedElement k) sizeOfVirtQueueUsedElement = heads[k] + length * 2 ^ 32
  distinct : heads.length ≤ device.queueSize % 2 ^ 16
  idx : heads ≠ [] → m.value (device.usedRing + 2) 2 = device.usedId + heads.length

/-- All entries are answered when the notification returns. -/
structure Served (device : VirtioBlkMmio) (env : BlkEnv σ) (device' : VirtioBlkMmio) (env' : BlkEnv σ) :
    Prop where
  answers : ∃ heads s, Takes v pages vm (device, env) heads s ∧
    device' = { device with
      lastAvailId := device.lastAvailId + heads.length
      usedId := device.usedId + heads.length
      interruptStatus := device'.interruptStatus } ∧
    device.Elements env'.memory heads
  balanced : device'.usedId = device'.lastAvailId
  consumed : device'.lastAvailId = env'.memory.value (device'.availRing + 2) 2
  interrupt : device'.usedId ≠ device.usedId → device'.interruptStatus.getLsbD 0 = true

/-- The header of the request at this head. -/
def HeaderFormed (self : VirtioBlkMmio) (env : BlkEnv σ) (head : ℕ) : Prop :=
  let header := VirtQueueDesc.ofMemory env.memory (self.descriptor + sizeOfVirtQueueDesc * head)
  self.descriptor ≠ 0 ∧ header.length = sizeOfVirtioBlkReq ∧ vm.Contains header.address ∧
    header.flags &&& virtQueueDescFlagsNext ≠ 0

/-- Every request that the loop comes to has a header. -/
def RequestsFormed (self : VirtioBlkMmio) (env : BlkEnv σ) : Prop :=
  ∀ s, Reaches (operationStep v pages vm) (self, env) s → Waiting s → s.1.HeaderFormed vm s.2 (nextHead s)

/-- The loop over the descriptors of the request that is taken in the state `s` comes to `t`. -/
def ChainReaches (self : VirtioBlkMmio) (s : VirtioBlkMmio × BlkEnv σ) (request : BlkRequest)
    (t : ChainState σ) : Prop :=
  ∃ id env₁ env, s.1.getNextAvailId s.2 = .ok (some id, self, env₁) ∧
    self.parseRequest vm id env₁ = .ok (some request, env) ∧
    Reaches (self.chainStep v pages vm request.isWrite) (chainStart request env) t

/-- Nothing that is written for the next request goes to the elements of the used ring that were
written since `start` : there is a free place for its own, and the sectors that are read to its
buffers, its status byte and the bounce buffers are elsewhere. -/
structure RequestApart (start : VirtioBlkMmio) (s : VirtioBlkMmio × BlkEnv σ) : Prop where
  room : s.1.usedId < start.usedId + start.queueSize % 2 ^ 16
  buffers : ∀ self request t, ChainReaches v pages vm self s request t → request.isWrite = false →
    let d := self.nextDescriptor t
    d.flags &&& virtQueueDescFlagsNext ≠ 0 → vm.Contains d.address →
      ∃ limit, v.ReadWithin pages t.env.host.pages self.file t.offset d.length limit ∧
        Disjoint (Set.Ico (vm.physical d.address) (vm.physical d.address + limit))
          (start.usedBytes (s.1.usedId - start.usedId))
  status : ∀ self request t, ChainReaches v pages vm self s request t →
    let d := self.nextDescriptor t
    d.flags &&& virtQueueDescFlagsNext = 0 → vm.Contains d.address →
      vm.physical d.address ∉ start.usedBytes (s.1.usedId - start.usedId)
  bounce : ∀ count p buffer p', pages.allocatePages count 0 p = (some buffer, p') →
    Disjoint (Set.Ico buffer (buffer + count * 4096)) (start.usedBytes (s.1.usedId - start.usedId))

/-- No request that the loop comes to writes to the answers in front of it. -/
def RequestsApart (self : VirtioBlkMmio) (env : BlkEnv σ) : Prop :=
  ∀ s, Reaches (operationStep v pages vm) (self, env) s → Waiting s → RequestApart v pages vm self s

/-- Each notification of the run that returns has served its requests. -/
def NotificationsServed : VirtioBlkMmio → List (BlkEnv σ) → Prop
  | _, [] => True
  | self, env :: run => ∀ self' env', self.operation v pages vm env = .ok (self', env') →
    Served v pages vm self env self' env' ∧ NotificationsServed self' run

/-- Each notification of the run that returns has found only requests with a header. -/
def NotificationsFormed : VirtioBlkMmio → List (BlkEnv σ) → Prop
  | _, [] => True
  | self, env :: run => ∀ self' env', self.operation v pages vm env = .ok (self', env') →
    RequestsFormed v pages vm self env ∧ NotificationsFormed self' run

/-- In each notification of the run that returns no request writes to the answers in front of it. -/
def NotificationsApart : VirtioBlkMmio → List (BlkEnv σ) → Prop
  | _, [] => True
  | self, env :: run => ∀ self' env', self.operation v pages vm env = .ok (self', env') →
    RequestsApart v pages vm self env ∧ NotificationsApart self' run

/-! ## One iteration -/

variable {v pages vm} {self self' : VirtioBlkMmio} {env env' : BlkEnv σ} {s s' : VirtioBlkMmio × BlkEnv σ}

theorem getNextAvailId_eq_ok {id : Option ℕ} (h : self.getNextAvailId env = .ok (id, self', env')) :
    self.availRing ≠ 0 ∧ env' = env.touch (self.availRing + 2) 2 ∧
      (¬Waiting (self, env) ∧ id = none ∧ self' = self ∨
        Waiting (self, env) ∧ id = some (self.lastAvailId % (self.queueSize % 2 ^ 16)) ∧
          self' = { self with lastAvailId := self.lastAvailId + 1 }) := by
  unfold getNextAvailId at h
  dsimp only at h
  split_ifs at h with h0 hidx
  · cases h
    exact ⟨h0, rfl, .inl ⟨not_not.mpr hidx, rfl, rfl⟩⟩
  · simp only [Exec.bind_eq_ok, checkedMod_eq_ok, checkedAdd_eq_ok] at h
    obtain ⟨next, ⟨-, rfl⟩, lastAvailId, ⟨-, rfl⟩, h⟩ := h
    cases h
    exact ⟨h0, rfl, .inr ⟨hidx, rfl, rfl⟩⟩

/-- A request is found exactly if its header is well formed. -/
theorem parseRequest_eq_ok {id : ℕ} {r : Option BlkRequest} (havail : self.availRing ≠ 0)
    (h : self.parseRequest vm id env = .ok (r, env')) :
    let head := env.memory.value (self.availRing + sizeOfRingHeader + 2 * id) 2
    ¬self.HeaderFormed vm env head ∧ r = none ∨
      self.HeaderFormed vm env head ∧ ∃ request, r = some request ∧ request.descriptorId = head := by
  intro head
  obtain ⟨h0, -⟩ | ⟨hnull, rfl, -⟩ | ⟨-, hheader, rfl, -⟩ |
    ⟨hnull, hlength, hin, -, ⟨hflags, rfl⟩ | ⟨hflags, rfl⟩⟩ := parseRequest_cases h
  · exact absurd h0 havail
  · exact .inl ⟨fun hf => hf.1 hnull, rfl⟩
  · exact .inl ⟨fun hf => hheader hf.2.1 hf.2.2.1, rfl⟩
  · exact .inl ⟨fun hf => hf.2.2.2 hflags, rfl⟩
  · exact .inr ⟨⟨hnull, hlength, hin, hflags⟩, _, rfl, rfl⟩

/-- The loop over the descriptors returns with a count of 32 bits, and it finds each descriptor of a
table. -/
theorem chain_eq_ok {isWrite : Bool} {n : ℕ} {t : ChainState σ} {r : Bool × ChainState σ}
    (h0 : self.descriptor ≠ 0) (ht : t.totalSize < 2 ^ 32)
    (h : loop (self.chainStep v pages vm isWrite) n t = .ok r) : r.1 = true ∧ r.2.totalSize < 2 ^ 32 := by
  refine loop_ok (I := fun t => t.totalSize < 2 ^ 32) (Q := fun r => r.1 = true ∧ r.2.totalSize < 2 ^ 32)
    (fun t t' _ _ hnext => (chainStep_next hnext).2.2.2) (fun t r hI _ hdone => ?_) n t ht
    (throughout_true n t) h
  obtain ⟨hnull, -⟩ | ⟨-, -, rfl⟩ := chainStep_eq_done hdone
  · exact absurd hnull h0
  · exact ⟨rfl, hI⟩

theorem writeUsed_eq_ok {id length : ℕ} (hid : id < 2 ^ 32) (hlength : length < 2 ^ 32)
    (h : self.writeUsed id length env = .ok (self', env')) :
    self' = { self with usedId := self.usedId + 1 } ∧
      env'.memory.value self.usedSlot sizeOfVirtQueueUsedElement = id + length * 2 ^ 32 ∧
      env'.memory.value (self.usedRing + 2) 2 = self.usedId + 1 := by
  obtain ⟨rfl, hlt, rfl⟩ := writeUsed_eq_store h
  -- The index lies in front of all elements.
  have hheader : self.usedRing + 2 + 2 ≤ self.usedSlot := by
    rw [usedSlot, sizeOfRingHeader]
    omega
  refine ⟨rfl, ?_, Memory.value_store_self hlt _⟩
  calc _ = (env.memory.store self.usedSlot sizeOfVirtQueueUsedElement (id + length * 2 ^ 32)).value
        self.usedSlot sizeOfVirtQueueUsedElement := Memory.value_store_of_disjoint _ (.inr hheader)
    _ = id + length * 2 ^ 32 := Memory.value_store_self (by rw [sizeOfVirtQueueUsedElement]; omega) _

theorem finishRequest_eq_ok {id : ℕ} {t : ChainState σ} (ht : t.totalSize < 2 ^ 32)
    (h : self.finishRequest vm id t = .ok (self', env')) :
    ∃ length < 2 ^ 32, ∃ env, self.writeUsed id length env = .ok (self', env') := by
  obtain ⟨-, h⟩ | ⟨-, hlt, h⟩ := finishRequest_cases h
  · exact ⟨_, ht, _, h⟩
  · exact ⟨_, hlt, _, h⟩

/-- What an iteration of the loop over the available ring does. -/
theorem operationStep_cases {r : Iter (VirtioBlkMmio × BlkEnv σ) (Bool × VirtioBlkMmio × BlkEnv σ)}
    (h : operationStep v pages vm s = .ok r) :
    (¬Waiting s ∧ r = .done (true, s.1, s.2.touch (s.1.availRing + 2) 2)) ∨
    (Waiting s ∧ ¬s.1.HeaderFormed vm s.2 (nextHead s) ∧
      ∃ env, r = .done (false, { s.1 with lastAvailId := s.1.lastAvailId + 1 }, env)) ∨
    s.1.HeaderFormed vm s.2 (nextHead s) ∧ ∃ s', r = .next s' ∧ Answered s s' := by
  obtain ⟨self, env⟩ := s
  simp only [operationStep, Exec.bind_eq_ok] at h
  obtain ⟨⟨id, self₁, env₁⟩, hid, h⟩ := h
  obtain ⟨havail, rfl, ⟨hwait, rfl, rfl⟩ | ⟨hwait, rfl, rfl⟩⟩ := getNextAvailId_eq_ok hid
  · cases h
    exact .inl ⟨hwait, rfl⟩
  · rw [Exec.bind_eq_ok] at h
    obtain ⟨⟨request, env₁⟩, hparse, h⟩ := h
    have hhead : ∀ head, self.HeaderFormed vm (env.touch (self.availRing + 2) 2) head ↔
        self.HeaderFormed vm env head := by
      intro head
      unfold HeaderFormed
      rw [BlkEnv.ofMemory_touch]
    obtain ⟨hformed, rfl⟩ | ⟨hformed, request, rfl, hid⟩ := parseRequest_eq_ok havail hparse
    · cases h
      rw [BlkEnv.value_touch, hhead] at hformed
      exact .inr (.inl ⟨hwait, hformed, _, rfl⟩)
    · have h0 := hformed.1
      rw [BlkEnv.value_touch, hhead] at hformed
      rw [BlkEnv.value_touch] at hid
      simp only [Exec.bind_eq_ok] at h
      obtain ⟨⟨complete, chain⟩, hchain, h⟩ := h
      obtain ⟨rfl, htotal⟩ := chain_eq_ok h0 (Nat.two_pow_pos 32) hchain
      simp only [Exec.bind_eq_ok] at h
      obtain ⟨⟨self', env'⟩, hfinish, h⟩ := h
      cases h
      obtain ⟨length, hlength, env₂, hwrite⟩ := finishRequest_eq_ok htotal hfinish
      have hhead16 := env.memory.value_lt 2 (self.availRing + sizeOfRingHeader +
        2 * (self.lastAvailId % (self.queueSize % 2 ^ 16)))
      obtain ⟨rfl, helement, hidx⟩ := writeUsed_eq_ok (hid ▸ hhead16.trans (by decide)) hlength hwrite
      rw [hid] at helement
      exact .inr (.inr ⟨hformed, _, rfl, hwait, rfl, ⟨length, hlength, helement⟩, hidx⟩)

theorem Elements.congr {device : VirtioBlkMmio} {m m' : Memory} {heads : List ℕ}
    (h : device.Elements m heads)
    (hbytes : m'.bytes = m.bytes) : device.Elements m' heads := by
  have hvalue : ∀ a n, m'.value a n = m.value a n := fun a n =>
    Memory.value_congr fun x _ _ => congrFun hbytes x
  exact ⟨fun k hk => by simpa only [hvalue] using h.element k hk, h.distinct,
    fun hne => by simpa only [hvalue] using h.idx hne⟩

/-! ## What an iteration leaves -/

section Keeps

variable {E : Set ℕ} {isWrite : Bool} {t t' chain : ChainState σ}

/-- A read that stays inside of its buffer keeps what meets neither the buffer nor the pages. -/
theorem staysInside_keeps {bufferAddress limit : ℕ} {host host' : BlockHost σ}
    (hbuffer : Disjoint (Set.Ico bufferAddress (bufferAddress + limit)) E)
    (hbounce : ∀ count p buffer p', pages.allocatePages count 0 p = (some buffer, p') →
      Disjoint (Set.Ico buffer (buffer + count * 4096)) E)
    (h : Fat32.StaysInside pages bufferAddress limit host host') :
    ∀ a ∈ E, host'.memory.bytes a = host.memory.bytes a := by
  intro a ha
  obtain ⟨new, hnew, -, hbytes⟩ := h.confined.accesses
  obtain ⟨new', hnew', hpages⟩ := h.bounce
  obtain rfl : new = new' := List.append_cancel_right (hnew.symm.trans hnew')
  refine hbytes a (fun hin => Set.disjoint_left.mp hbuffer hin ha) fun x hx hpriv hin => ?_
  obtain ⟨buffer, count, p, halloc, -, hrange⟩ := hpages x hx hpriv
  exact Set.disjoint_left.mp (hbounce count _ buffer p halloc) (hrange hin) ha

theorem transferFile_keeps (hg : v.Geometry) {address offset size : ℕ} {succeeded : Bool}
    (hbuffer : isWrite = false → ∃ limit, v.ReadWithin pages env.host.pages self.file offset size limit ∧
      Disjoint (Set.Ico address (address + limit)) E)
    (hbounce : ∀ count p buffer p', pages.allocatePages count 0 p = (some buffer, p') →
      Disjoint (Set.Ico buffer (buffer + count * 4096)) E)
    (h : self.transferFile v pages isWrite address offset size env = .ok (succeeded, env')) :
    ∀ a ∈ E, env'.memory.bytes a = env.memory.bytes a := by
  cases isWrite with
  | true =>
    rw [transferFile, if_pos rfl, Exec.bind_eq_ok] at h
    obtain ⟨⟨r, host⟩, hr, h⟩ := h
    cases h
    exact fun a _ => congrFun (Fat32.write_bytes hg hr) a
  | false =>
    rw [transferFile, if_neg (by decide), Exec.bind_eq_ok] at h
    obtain ⟨⟨r, host⟩, hr, h⟩ := h
    cases h
    obtain ⟨limit, hwithin, hdisjoint⟩ := hbuffer rfl
    exact staysInside_keeps hdisjoint hbounce (Fat32.read_staysInside_of_within hg hr hwithin)

/-- The loop over the descriptors goes on behind a transfer. -/
theorem chainStep_keeps (hg : v.Geometry)
    (hbuffer : isWrite = false → (self.nextDescriptor t).flags &&& virtQueueDescFlagsNext ≠ 0 →
      vm.Contains (self.nextDescriptor t).address → ∃ limit, v.ReadWithin pages t.env.host.pages self.file
        t.offset (self.nextDescriptor t).length limit ∧
        Disjoint (Set.Ico (vm.physical (self.nextDescriptor t).address)
          (vm.physical (self.nextDescriptor t).address + limit)) E)
    (hbounce : ∀ count p buffer p', pages.allocatePages count 0 p = (some buffer, p') →
      Disjoint (Set.Ico buffer (buffer + count * 4096)) E)
    (h : self.chainStep v pages vm isWrite t = .ok (.next t')) :
    ∀ a ∈ E, t'.env.memory.bytes a = t.env.memory.bytes a := by
  obtain ⟨-, hflags, -, ⟨-, rfl⟩ | ⟨hin, succeeded, env, htransfer, rfl⟩⟩ := chainStep_eq_next h
  · exact fun a _ => rfl
  · intro a ha
    refine (transferFile_keeps hg ?_ hbounce htransfer a ha).trans (congrFun (BlkEnv.bytes_touch _ _) a)
    exact fun hread => hbuffer hread hflags hin

/-- An element of the used ring and its index are written. -/
theorem writeUsed_keeps {id length : ℕ}
    (hslot : Disjoint (Set.Ico self.usedSlot (self.usedSlot + sizeOfVirtQueueUsedElement)) E)
    (hidx : Disjoint (Set.Ico (self.usedRing + 2) (self.usedRing + 2 + 2)) E)
    (h : self.writeUsed id length env = .ok (self', env')) :
    ∀ a ∈ E, env'.memory.bytes a = env.memory.bytes a := by
  obtain ⟨-, -, rfl⟩ := writeUsed_eq_store h
  intro a ha
  exact (Memory.bytes_store_of_notMem _ fun hin => Set.disjoint_left.mp hidx hin ha).trans
    (Memory.bytes_store_of_notMem _ fun hin => Set.disjoint_left.mp hslot hin ha)

theorem finishRequest_keeps {id : ℕ}
    (hstatus : vm.Contains t.descriptor.address → vm.physical t.descriptor.address ∉ E)
    (hslot : Disjoint (Set.Ico self.usedSlot (self.usedSlot + sizeOfVirtQueueUsedElement)) E)
    (hidx : Disjoint (Set.Ico (self.usedRing + 2) (self.usedRing + 2 + 2)) E)
    (h : self.finishRequest vm id t = .ok (self', env')) :
    ∀ a ∈ E, env'.memory.bytes a = t.env.memory.bytes a := by
  obtain ⟨-, h⟩ | ⟨hin, -, h⟩ := finishRequest_cases h
  · exact writeUsed_keeps hslot hidx h
  · intro a ha
    refine (writeUsed_keeps hslot hidx h a ha).trans (Memory.bytes_store_of_notMem _ fun hmem => ?_)
    have heq : a = vm.physical t.descriptor.address := by
      have := hmem.1
      have := hmem.2
      omega
    exact hstatus hin (heq ▸ ha)

end Keeps

/-- A batch of at most as many requests as the queue has entries has a place for each element. -/
theorem usedElement_disjoint (device : VirtioBlkMmio) {k n : ℕ} (hk : k < n)
    (hn : n < device.queueSize % 2 ^ 16) :
    Disjoint (Set.Ico (device.usedElement n) (device.usedElement n + sizeOfVirtQueueUsedElement))
      (Set.Ico (device.usedElement k) (device.usedElement k + sizeOfVirtQueueUsedElement)) := by
  have hne : (device.usedId + k) % (device.queueSize % 2 ^ 16) ≠
      (device.usedId + n) % (device.queueSize % 2 ^ 16) := by
    intro heq
    have hdvd := (Nat.modEq_iff_dvd' (show device.usedId + k ≤ device.usedId + n by omega)).mp heq
    have := Nat.le_of_dvd (by omega) hdvd
    omega
  refine Set.disjoint_left.mpr fun a ha ha' => ?_
  obtain ⟨h₁, h₂⟩ := ha
  obtain ⟨h₃, h₄⟩ := ha'
  rw [usedElement, sizeOfVirtQueueUsedElement] at h₁ h₂ h₃ h₄
  omega

section Step

variable {start s s' : VirtioBlkMmio × BlkEnv σ} {heads : List ℕ} (hg : v.Geometry)

/-- The device behind the answers. -/
theorem Takes.device (h : Takes v pages vm start heads s) : s.1 = { start.1 with
    lastAvailId := start.1.lastAvailId + heads.length
    usedId := start.1.usedId + heads.length } := by
  induction h with
  | refl => rfl
  | next _ hstep ih =>
    obtain ⟨-, hr⟩ | ⟨-, -, env, hr⟩ | ⟨-, s', hr, hanswer⟩ := operationStep_cases hstep
    · cases hr
    · cases hr
    · cases hr
      rw [hanswer.device, ih, List.length_append]
      rfl

theorem Takes.reaches (h : Takes v pages vm start heads s) : Reaches (operationStep v pages vm)
    start s := by
  induction h with
  | refl => exact .refl
  | next _ hstep ih => exact ih.tail hstep

theorem exists_takes (h : Reaches (operationStep v pages vm) start s) :
    ∃ heads, Takes v pages vm start heads s := by
  induction h with
  | refl => exact ⟨[], .refl⟩
  | tail _ hstep ih =>
    obtain ⟨heads, htakes⟩ := ih
    exact ⟨_, htakes.next hstep⟩

include hg

/-- What is in front of a descriptor of the request keeps the elements. -/
theorem ChainReaches.keeps (hapart : RequestApart v pages vm self s) {device : VirtioBlkMmio}
    {request : BlkRequest} {t : ChainState σ} (h : ChainReaches v pages vm device s request t) :
    ∀ a ∈ self.usedBytes (s.1.usedId - self.usedId), t.env.memory.bytes a = s.2.memory.bytes a := by
  obtain ⟨id, env₁, env, hid, hparse, hreached⟩ := h
  have henv : env.memory.bytes = s.2.memory.bytes := by
    obtain ⟨-, rfl, -⟩ := getNextAvailId_eq_ok hid
    exact (parseRequest_bytes hparse).trans (BlkEnv.bytes_touch _ _)
  induction hreached with
  | refl => exact fun a _ => congrFun henv a
  | tail hreached hnext ih =>
    intro a ha
    exact (chainStep_keeps hg (hapart.buffers _ _ _ ⟨id, env₁, env, hid, hparse, hreached⟩) hapart.bounce
      hnext a ha).trans (ih a ha)

/-- An iteration that goes on keeps the elements of the used ring. -/
theorem operationStep_keeps (hapart : RequestApart v pages vm start.1 s)
    (htakes : Takes v pages vm start heads s)
    (h : operationStep v pages vm s = .ok (.next s')) :
    ∀ a ∈ start.1.usedBytes heads.length, s'.2.memory.bytes a = s.2.memory.bytes a := by
  have hdevice := htakes.device
  have hcount : s.1.usedId - start.1.usedId = heads.length := by
    rw [hdevice]
    exact Nat.add_sub_cancel_left _ _
  have hroom : heads.length < start.1.queueSize % 2 ^ 16 := by
    have := hapart.room
    rw [hdevice] at this
    exact Nat.lt_of_add_lt_add_left this
  simp only [operationStep, Exec.bind_eq_ok] at h
  obtain ⟨⟨id, self, env⟩, hid, h⟩ := h
  obtain ⟨-, -, ⟨-, rfl, -⟩ | ⟨-, rfl, hself⟩⟩ := getNextAvailId_eq_ok hid
  · cases h
  rw [Exec.bind_eq_ok] at h
  obtain ⟨⟨request, env₁⟩, hparse, h⟩ := h
  cases request with
  | none => cases h
  | some request =>
    simp only [Exec.bind_eq_ok] at h
    obtain ⟨⟨complete, chain⟩, hchain, h⟩ := h
    cases complete with
    | false => cases h
    | true =>
      simp only [Exec.bind_eq_ok] at h
      obtain ⟨⟨self', env'⟩, hfinish, h⟩ := h
      cases h
      obtain ⟨t, hreached, hdone⟩ := exists_reaches_done hchain
      have ht : ChainReaches v pages vm self s request t := ⟨_, env, env₁, hid, hparse, hreached⟩
      obtain ⟨-, hfalse⟩ | ⟨-, hflags, hlast⟩ := chainStep_eq_done hdone
      · cases hfalse
      obtain rfl := (Prod.mk.inj hlast).2
      have hstatus := hapart.status self request t ht hflags
      have hkeeps := ht.keeps hg hapart
      rw [hcount] at hstatus hkeeps
      have hslot : self.usedSlot = start.1.usedElement heads.length := by
        rw [hself, hdevice]
        rfl
      have hring : self.usedRing = start.1.usedRing := by
        rw [hself, hdevice]
      intro a ha
      refine (finishRequest_keeps ?_ ?_ ?_ hfinish a ha).trans (hkeeps a ha)
      · exact hstatus
      · rw [hslot]
        refine Set.disjoint_left.mpr fun b hb hb' => ?_
        obtain ⟨k, hk, hmem⟩ := hb'
        exact Set.disjoint_left.mp (start.1.usedElement_disjoint hk hroom) hb hmem
      · -- The index lies in front of all elements.
        rw [hring]
        refine Set.disjoint_left.mpr fun b hb hb' => ?_
        obtain ⟨k, -, hmem⟩ := hb'
        have hlow := hmem.1
        have hhigh := hb.2
        rw [usedElement, sizeOfRingHeader] at hlow
        omega

/-- All answers of the loop are in the used ring. -/
theorem Takes.elements (hapart : RequestsApart v pages vm start.1 start.2)
    (h : Takes v pages vm start heads s) : start.1.Elements s.2.memory heads := by
  induction h with
  | refl => exact ⟨fun k hk => absurd hk (Nat.not_lt_zero k), Nat.zero_le _, fun h => absurd rfl h⟩
  | @next heads s s' htakes hstep ih =>
    obtain ⟨-, hr⟩ | ⟨-, -, env, hr⟩ | ⟨-, s'', hr, hanswer⟩ := operationStep_cases hstep
    · cases hr
    · cases hr
    cases hr
    have hdevice := htakes.device
    have happly := hapart s htakes.reaches hanswer.waiting
    have hkeeps := operationStep_keeps hg happly htakes hstep
    have hroom : heads.length < start.1.queueSize % 2 ^ 16 := by
      have := happly.room
      rw [hdevice] at this
      exact Nat.lt_of_add_lt_add_left this
    have hslot : s.1.usedSlot = start.1.usedElement heads.length := by
      rw [hdevice]
      rfl
    refine ⟨fun k hk => ?_, by rw [List.length_append]; exact hroom, fun _ => ?_⟩
    · rw [List.length_append, List.length_singleton] at hk
      obtain hlt | rfl := Nat.lt_or_eq_of_le (Nat.le_of_lt_succ hk)
      · obtain ⟨length, hlength, hvalue⟩ := ih.element k hlt
        refine ⟨length, hlength, ?_⟩
        rw [List.getElem_append_left hlt, ← hvalue]
        exact Memory.value_congr fun a ha ha' => hkeeps a ⟨k, hlt, ha, ha'⟩
      · obtain ⟨length, hlength, hvalue⟩ := hanswer.element
        refine ⟨length, hlength, ?_⟩
        rw [List.getElem_concat_length rfl, ← hslot]
        exact hvalue
    · have hidx := hanswer.idx
      rw [hdevice] at hidx
      rw [List.length_append, List.length_singleton, ← Nat.add_assoc]
      exact hidx

end Step

/-! ## One notification -/

theorem operation_served_iff (hg : v.Geometry) (hbalanced : self.usedId = self.lastAvailId)
    (hapart : RequestsApart v pages vm self env) (h : self.operation v pages vm env = .ok (self', env')) :
    Served v pages vm self env self' env' ↔ RequestsFormed v pages vm self env := by
  rw [operation, Exec.bind_eq_ok] at h
  obtain ⟨⟨complete, self₁, env₁⟩, hloop, h⟩ := h
  obtain ⟨⟨self₂, env₂⟩, hreach, hdone⟩ := exists_reaches_done hloop
  obtain ⟨heads, htakes⟩ := exists_takes hreach
  have hdevice := htakes.device
  have hbal : self₂.usedId = self₂.lastAvailId := by
    rw [show self₂ = _ from hdevice]
    simp only [hbalanced]
  obtain ⟨hwait, hr⟩ | ⟨hwait, hmalformed, env₃, hr⟩ | ⟨-, s', hr, -⟩ := operationStep_cases hdone
  · cases hr
    cases h
    refine iff_of_true ⟨⟨heads, _, htakes, ?_, ?_⟩, hbal, ?_, fun _ => ?_⟩ fun t ht hwait' => ?_
    · rw [show self₂ = _ from hdevice]
    · exact (htakes.elements hg hapart).congr rfl
    · exact (not_not.mp hwait).trans (BlkEnv.value_touch ..).symm
    · simp
    · -- The loop has returned from `t`, too, and not early.
      obtain ⟨m, hm⟩ := loop_ok_of_reaches ht hloop
      obtain hdone' | ⟨t', -, -, hnext, -⟩ := loop_eq_ok hm
      · obtain ⟨hempty, -⟩ | ⟨-, -, env₃, hr⟩ | ⟨-, t', hr, -⟩ := operationStep_cases hdone'
        · exact absurd hwait' hempty
        · cases hr
        · cases hr
      · obtain ⟨-, hr⟩ | ⟨-, -, env₃, hr⟩ | ⟨hformed, -⟩ := operationStep_cases hnext
        · cases hr
        · cases hr
        · exact hformed
  · cases hr
    cases h
    refine iff_of_false (fun hserved => ?_) fun hall => hmalformed (hall _ hreach hwait)
    have hafter : self₂.usedId = self₂.lastAvailId + 1 := hserved.balanced
    omega
  · cases hr

/-! ## Runs of notifications -/

/-- In a run of notifications whose requests write nothing to the answers in front of them, each one
serves all requests that wait exactly when each request that it comes to has a header. -/
theorem notifications_served_iff (hg : v.Geometry) : ∀ (run : List (BlkEnv σ)) (self : VirtioBlkMmio),
    self.usedId = self.lastAvailId → NotificationsApart v pages vm self run →
      (NotificationsServed v pages vm self run ↔ NotificationsFormed v pages vm self run)
  | [], self, _, _ => iff_of_true trivial trivial
  | env :: run, self, hbalanced, hapart => by
    unfold NotificationsServed NotificationsFormed
    refine forall₃_congr fun self' env' h => ?_
    obtain ⟨happly, hrest⟩ := hapart self' env' h
    have hiff := operation_served_iff hg hbalanced happly h
    constructor
    · rintro ⟨hserved, hall⟩
      exact ⟨hiff.mp hserved, (notifications_served_iff hg run self' hserved.balanced hrest).mp hall⟩
    · rintro ⟨hformed, hall⟩
      have hserved := hiff.mpr hformed
      exact ⟨hserved, (notifications_served_iff hg run self' hserved.balanced hrest).mpr hall⟩

/-- Bytes of the RAM : two requests, each with a header of 16 bytes, a buffer of 512 bytes and a
status byte, and their entries in the available ring. The first one writes the file, the second one
reads it. -/
def pairBytes : List (ℕ × BitVec 8) :=
  [(0x80000000, 1#8),
    (0x80001003, 0x40#8), (0x80001008, 16#8), (0x8000100C, 1#8), (0x8000100E, 1#8),
    (0x80001013, 0x48#8), (0x80001019, 2#8), (0x8000101C, 1#8), (0x8000101E, 2#8),
    (0x80001020, 0x20#8), (0x80001023, 0x40#8), (0x80001028, 1#8), (0x8000102C, 2#8),
    (0x80001030, 0x10#8), (0x80001033, 0x40#8), (0x80001038, 16#8), (0x8000103C, 1#8), (0x8000103E, 4#8),
    (0x80001041, 2#8), (0x80001043, 0x48#8), (0x80001049, 2#8), (0x8000104C, 3#8), (0x8000104E, 5#8),
    (0x80001050, 0x21#8), (0x80001053, 0x40#8), (0x80001058, 1#8), (0x8000105C, 2#8),
    (0x80001402, 2#8), (0x80001406, 3#8)]

def pairEnv : BlkEnv Unit :=
  ⟨⟨⟨fun a => (pairBytes.lookup a).getD 0#8, []⟩, fun _ => 7, ()⟩, [], []⟩

/-- Up to sixteen pages that are always free. -/
def fewPages : Pages Unit where
  allocatePages count _ s := (if count ≤ 16 then some 0x100000 else none, s)
  freePages _ _ s := s

/-- The next request is taken, has one buffer and a status byte. -/
structure OneBuffer (device : VirtioBlkMmio) (s : VirtioBlkMmio × BlkEnv Unit) (request : BlkRequest)
    (start last : ChainState Unit) : Prop where
  taken : ∃ id env₁ env, s.1.getNextAvailId s.2 = .ok (some id, device, env₁) ∧
    device.parseRequest linkedVm id env₁ = .ok (some request, env) ∧ start = chainStart request env
  buffer : device.chainStep (Fat32.stepVolume 1 2) fewPages linkedVm request.isWrite start = .ok
    (.next last)
  status : ∃ r, device.chainStep (Fat32.stepVolume 1 2) fewPages linkedVm request.isWrite last = .ok
    (.done r)

theorem OneBuffer.reaches {device : VirtioBlkMmio} {s : VirtioBlkMmio × BlkEnv Unit}
    {request request' : BlkRequest}
    {start last t : ChainState Unit} (h : OneBuffer device s request start last)
    (ht : ChainReaches (Fat32.stepVolume 1 2) fewPages linkedVm self s request' t) :
    self = device ∧ request' = request ∧ (t = start ∨ t = last) := by
  obtain ⟨id, env₁, env, hid, hparse, rfl⟩ := h.taken
  obtain ⟨id', env₁', env', hid', hparse', hreached⟩ := ht
  cases hid.symm.trans hid'
  cases hparse.symm.trans hparse'
  obtain ⟨r, hr⟩ := h.status
  refine ⟨rfl, rfl, ?_⟩
  obtain rfl | hreached := hreached.eq_or_reaches h.buffer
  · exact .inl rfl
  · exact .inr (hreached.eq_of_done hr)

/-- The first of the two requests, and the second one behind its iteration. -/
theorem pair_first : ∃ request start last, OneBuffer (linkedDevice 1) (linkedDevice 0, pairEnv)
    request start last ∧
    request.isWrite = true ∧ start.offset = 0 ∧ start.descriptor.next = 1 ∧ last.descriptor.next = 2 ∧
    (linkedDevice 1).nextDescriptor start = ⟨0x48000000, 512, 1, 2⟩ ∧
    (linkedDevice 1).nextDescriptor last = ⟨0x40000020, 1, 2, 0⟩ := by
  exact ⟨_, _, _, ⟨⟨_, _, _, rfl, rfl, rfl⟩, rfl, _, rfl⟩, rfl, rfl, by decide +kernel, by decide +kernel,
    by decide +kernel, by decide +kernel⟩

theorem pair_second : ∃ s₁ s₂ r request start last,
    operationStep (Fat32.stepVolume 1 2) fewPages linkedVm (linkedDevice 0, pairEnv) = .ok (.next s₁) ∧
    operationStep (Fat32.stepVolume 1 2) fewPages linkedVm s₁ = .ok (.next s₂) ∧
    operationStep (Fat32.stepVolume 1 2) fewPages linkedVm s₂ = .ok (.done r) ∧
    s₁.1 = { linkedDevice 1 with usedId := 1 } ∧ s₂.1 = { linkedDevice 2 with usedId := 2 } ∧
    s₂.2.memory.value 0x80001402 2 = 2 ∧
    OneBuffer { linkedDevice 2 with usedId := 1 } s₁ request start last ∧ request.isWrite = false ∧
    start.offset = 0 ∧ start.descriptor.next = 4 ∧ last.descriptor.next = 5 ∧
    ({ linkedDevice 2 with usedId := 1 } : VirtioBlkMmio).nextDescriptor start = ⟨0x48000200, 512, 3, 5⟩ ∧
    ({ linkedDevice 2 with usedId := 1 } : VirtioBlkMmio).nextDescriptor last = ⟨0x40000021, 1, 2, 0⟩ ∧
    nextHead s₁ = 3 ∧ VirtQueueDesc.ofMemory s₁.2.memory (s₁.1.descriptor + sizeOfVirtQueueDesc * 3) =
      ⟨0x40000010, 16, 1, 4⟩ := by
  exact ⟨_, _, _, _, _, _, rfl, rfl, rfl, rfl, rfl, by decide +kernel,
    ⟨⟨_, _, _, rfl, rfl, rfl⟩, rfl, _, rfl⟩, rfl,
    rfl, by decide +kernel, by decide +kernel, by decide +kernel, by decide +kernel, by decide +kernel,
    by decide +kernel⟩

/-- The only sector of the file is read with one transfer. -/
theorem sector_readWithin {σ : Type} (pages : Pages σ) (p : σ) {limit : ℕ} (hlimit : 512 ≤ limit) :
    (Fat32.stepVolume 1 2).ReadWithin pages p ⟨2, 512⟩ 0 512 limit := by
  intro n cluster hn hcluster
  have hclamp : Fat32.clampLength ⟨2, 512⟩ 0 512 = .ok (some 512) := by decide
  obtain rfl := Option.some.inj (Except.ok.inj (hclamp.symm.trans hn))
  obtain rfl : 2 = cluster := Option.some.inj hcluster
  refine ⟨hlimit, fun _ e he => ?_, fun x bytes e hlater hextent => ?_⟩
  · cases he
    exact hlimit
  · exfalso
    clear hextent
    induction hlater with
    | first he hne =>
      cases he
      exact hne rfl
    | next _ _ _ _ ih => exact ih

/-- The answer to the second request leaves that to the first one. -/
theorem pair_apart : RequestsApart (Fat32.stepVolume 1 2) fewPages linkedVm (linkedDevice 0) pairEnv := by
  obtain ⟨s₁, s₂, r, request, start, last, hstep₁, hstep₂, hdone, hs₁, hs₂, hidx, hone, hread,
    hoffset, -, -,
    hbuffer, hstatus, -⟩ := pair_second
  intro s hs hwait
  obtain rfl | hs := hs.eq_or_reaches hstep₁
  · have hempty : (linkedDevice 0).usedBytes ((linkedDevice 0).usedId - (linkedDevice 0).usedId) = ∅ :=
      Set.eq_empty_of_forall_notMem fun a ⟨k, hk, _⟩ => absurd hk (Nat.not_lt_zero k)
    obtain ⟨request, start, last, hone, hwrite, -⟩ := pair_first
    refine ⟨by decide, fun self request' t ht hread => ?_, fun self request' t ht _ _ => ?_,
      fun count p buffer p' _ => ?_⟩
    · obtain ⟨rfl, rfl, -⟩ := hone.reaches ht
      cases hwrite.symm.trans hread
    · rw [hempty]
      exact Set.notMem_empty _
    · rw [hempty]
      exact Set.disjoint_empty _
  obtain rfl | hs := hs.eq_or_reaches hstep₂
  · have hused : ∀ a ∈ (linkedDevice 0).usedBytes (s.1.usedId - (linkedDevice 0).usedId),
        0x80002004 ≤ a ∧ a < 0x8000200C := by
      rintro a ⟨k, hk, ha⟩
      rw [hs₁] at hk
      obtain rfl := Nat.lt_one_iff.mp hk
      exact ⟨ha.1, ha.2⟩
    refine ⟨by rw [hs₁]; decide, fun self request' t ht _ => ?_, fun self request' t ht => ?_,
      fun count p buffer p' halloc => Set.disjoint_left.mpr fun a ha hin => ?_⟩
    · obtain ⟨rfl, rfl, rfl | rfl⟩ := hone.reaches ht
      · intro d _ _
        have hd : d = ⟨0x48000200, 512, 3, 5⟩ := hbuffer
        rw [hd, hoffset]
        refine ⟨512, sector_readWithin _ _ le_rfl, Set.disjoint_left.mpr fun a ha hin => ?_⟩
        have hlow := hused a hin
        have hhigh : 0x88000200 ≤ a := ha.1
        omega
      · intro d hflags _
        have hd : d = ⟨0x40000021, 1, 2, 0⟩ := hstatus
        rw [hd] at hflags
        exact absurd rfl hflags
    · obtain ⟨rfl, rfl, rfl | rfl⟩ := hone.reaches ht
      · intro d hflags _
        have hd : d = ⟨0x48000200, 512, 3, 5⟩ := hbuffer
        rw [hd] at hflags
        cases hflags
      · intro d _ _ hin
        have hd : d = ⟨0x40000021, 1, 2, 0⟩ := hstatus
        rw [hd] at hin
        exact absurd (hused _ hin).1 (by decide)
    · have hlow := (hused a hin).1
      have hhigh := ha.2
      obtain ⟨hpage, -⟩ := Prod.mk.inj halloc
      split_ifs at hpage with hcount
      cases hpage
      omega
  · rw [hs.eq_of_done hdone] at hwait
    refine absurd ?_ hwait
    rw [hs₂]
    exact hidx.symm

/-- The two requests are answered, in their order. -/
theorem notifications_served_iff_pair :
    NotificationsServed (Fat32.stepVolume 1 2) fewPages linkedVm (linkedDevice 0) [pairEnv] ∧
      ((linkedDevice 0).operation (Fat32.stepVolume 1 2) fewPages linkedVm pairEnv).toOption.map (fun r =>
        (r.1.usedId, r.2.memory.value 0x80002004 4, r.2.memory.value 0x8000200C 4)) = some (2, 0, 3) := by
  refine ⟨(notifications_served_iff (Fat32.stepVolume_geometry 1 2) [pairEnv] (linkedDevice 0) rfl
    fun _ _ _ => ⟨pair_apart, trivial⟩).mpr fun self' env' _ =>
    ⟨fun s hs hwait => ?_, trivial⟩, by decide +kernel⟩
  obtain ⟨s₁, s₂, r, request, start, last, hstep₁, hstep₂, hdone, hs₁, hs₂, hidx, -, -, -, -, -, -, -,
    hhead, hheader⟩ := pair_second
  obtain rfl | hs := hs.eq_or_reaches hstep₁
  · exact ⟨by decide, by decide +kernel, by decide +kernel, by decide +kernel⟩
  obtain rfl | hs := hs.eq_or_reaches hstep₂
  · unfold HeaderFormed
    rw [hhead, hheader, hs₁]
    exact ⟨by decide, by decide, by decide, by decide⟩
  · rw [hs.eq_of_done hdone] at hwait
    refine absurd ?_ hwait
    rw [hs₂]
    exact hidx.symm

/-- The bytes of a request with a header of 15 bytes, and a status descriptor behind it. -/
def shortBytes (a : ℕ) : BitVec 8 :=
  if a = 0x80001008 then 15#8 else if a = 0x80001010 then 16#8 else if a = 0x80001013 then 0x40#8
  else if a = 0x80001018 then 1#8 else linkedBytes 2 0 a

def shortEnv : BlkEnv Unit :=
  ⟨⟨⟨shortBytes, []⟩, fun _ => 0, ()⟩, [], []⟩

/-- The request with the short header is taken from the available ring, and no element is added to the used
ring. -/
theorem notifications_not_served :
    (¬∀ run, NotificationsServed (Fat32.stepVolume 1 2) Fat32.onePage linkedVm (linkedDevice 0) run) ∧
      VirtQueueDesc.ofMemory shortEnv.memory 0x80001000 = ⟨0x40000000, 15, 1, 1⟩ ∧
      VirtQueueDesc.ofMemory shortEnv.memory 0x80001010 = ⟨0x40000010, 1, 2, 0⟩ ∧
      ∃ env, (linkedDevice 0).operation (Fat32.stepVolume 1 2) Fat32.onePage linkedVm shortEnv =
          .ok (linkedDevice 1, env) ∧ env.memory.value ((linkedDevice 1).availRing + 2) 2 = 1 ∧
        (linkedDevice 1).lastAvailId = 1 ∧ (linkedDevice 1).usedId = 0 := by
  obtain ⟨env, hrun, hidx⟩ : ∃ env, (linkedDevice 0).operation (Fat32.stepVolume 1 2)
    Fat32.onePage linkedVm
      shortEnv = .ok (linkedDevice 1, env) ∧ env.memory.value ((linkedDevice 1).availRing + 2) 2 = 1 :=
    ⟨_, rfl, rfl⟩
  refine ⟨fun h => ?_, rfl, rfl, env, hrun, hidx, rfl, rfl⟩
  have hserved := (h [shortEnv] (linkedDevice 1) env hrun).1
  exact absurd hserved.balanced (by decide)

end VirtioBlkMmio

end MiniVisor
