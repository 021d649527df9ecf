import MiniVisor.AllocatorRoundTrip
import MiniVisor.DtbReg
import MiniVisor.GicMmio
import MiniVisor.Transition

/-!
# Starting CPUs

`launch_cpu` allocates a stack, and asks the firmware for each CPU of the device tree but its own,
until one is started. The firmware is a parameter (`Smc`); `Firmware` is what `CPU_ON` is documented
to do : a CPU is started once, with the argument of the call, and a call that fails changes nothing.

The CPUs are asked in the order in which a loop over the search gets their nodes, which
`search_next_iff` is about (`launchCpu_iff`). Whatever the firmware answers, and in whatever order
the CPUs take their steps, the stacks of all CPUs that were started are disjoint from each other,
from the free bytes and from all other blocks in use (`launchRun_stacks`). -/

namespace MiniVisor

open Machine

/-! ## PSCI -/

def psciCpuOn : BitVec 64 := 0xC4000003

inductive PsciErrorCodes
  | success
  | notSupported
  | invalidParameters
  | denied
  | alreadyOn
  | onPending
  | internalFailure
  | notPresent
  | disabled
  | invalidAddress
  | unknown
  deriving DecidableEq, Repr

/-- `From<u64>`, which looks at the low 32 bits. -/
def PsciErrorCodes.ofValue (value : BitVec 64) : PsciErrorCodes :=
  match (value.setWidth 32).toInt with
  | 0 => success
  | -1 => notSupported
  | -2 => invalidParameters
  | -3 => denied
  | -4 => alreadyOn
  | -5 => onPending
  | -6 => internalFailure
  | -7 => notPresent
  | -8 => disabled
  | -9 => invalidAddress
  | _ => unknown

/-- `smc`, on the state of the firmware. -/
abbrev Smc (σ : Type) := BitVec 64 → BitVec 64 → BitVec 64 → BitVec 64 → σ → BitVec 64 × σ

section

variable {σ : Type}

/-- `cpu_on`. -/
def cpuOn (smc : Smc σ) (targetCpu entryPoint argument : BitVec 64) (s : σ) :
    Except PsciErrorCodes Unit × σ :=
  let (result, s) := smc psciCpuOn targetCpu entryPoint argument s
  let errorCode := PsciErrorCodes.ofValue result
  if errorCode = .success then (.ok (), s) else (.error errorCode, s)

/-! ## The code -/

/-- `cpu`. -/
def cpuNodeName : List (BitVec 8) := [0x63, 0x70, 0x75]

variable (d : Dtb) (mpidrEl1 coreEntry : BitVec 64) (smc : Smc σ)

/-- One iteration of the loop of `launch_cpu`. -/
def launchStep (stackAddress : ℕ) : Option DtbNode × σ → Exec (Iter (Option DtbNode × σ) (Bool × σ))
  | (cpuNode, s) => do
    match ← d.searchNode cpuNodeName cpuNode with
    | none => pure (.done (false, s))
    | some cpu =>
      match ← d.readRegProperty cpu 0 with
      | none => pure (.next (some cpu, s))
      | some (affinity, _) =>
        if mpidrToAffinity mpidrEl1 = BitVec.ofNat 64 affinity then pure (.next (some cpu, s))
        else
          match cpuOn smc (BitVec.ofNat 64 affinity) coreEntry (BitVec.ofNat 64 stackAddress) s with
          | (.ok (), s) => pure (.done (true, s))
          | (.error _, s) => pure (.next (some cpu, s))

/-- The end of `launch_cpu`. -/
def finishLaunch (stackAddress : ℕ) (m : MemoryAllocator) : Bool → Exec MemoryAllocator
  | true => .ok m
  | false => m.freePages (stackAddress - stackSize) (stackSize >>> pageShift)

/-- `launch_cpu`. -/
def launchCpu (m : MemoryAllocator) (s : σ) : Exec (Bool × MemoryAllocator × σ) := do
  let (a, m) ← expect (← m.allocatePages (stackSize >>> pageShift) 0)
  let stackAddress ← checkedAdd 64 a stackSize
  let (launched, s) ← loop (launchStep d mpidrEl1 coreEntry smc stackAddress) Dtb.maxIterations (none, s)
  let m ← finishLaunch stackAddress m launched
  pure (launched, m, s)

/-! ## The firmware -/

/-- What `CPU_ON` does. `started` are the CPUs that it has started, with their arguments. -/
structure Firmware (smc : Smc σ) (started : σ → BitVec 64 → Option (BitVec 64)) : Prop where
  starts : ∀ targetCpu entryPoint argument s,
    PsciErrorCodes.ofValue (smc psciCpuOn targetCpu entryPoint argument s).1 = .success →
      started s targetCpu = none ∧ started (smc psciCpuOn targetCpu entryPoint argument s).2 =
        Function.update (started s) targetCpu (some argument)
  fails : ∀ targetCpu entryPoint argument s,
    PsciErrorCodes.ofValue (smc psciCpuOn targetCpu entryPoint argument s).1 ≠ .success →
      (smc psciCpuOn targetCpu entryPoint argument s).2 = s

variable {d mpidrEl1 coreEntry smc} {started : σ → BitVec 64 → Option (BitVec 64)} {s s' : σ}
  {targetCpu entryPoint argument : BitVec 64}

theorem cpuOn_eq_ok (h : PsciErrorCodes.ofValue (smc psciCpuOn targetCpu entryPoint argument s).1 =
    .success) :
    cpuOn smc targetCpu entryPoint argument s =
      (.ok (), (smc psciCpuOn targetCpu entryPoint argument s).2) :=
  if_pos h

theorem Firmware.cpuOn_eq_error (hfw : Firmware smc started)
    (h : PsciErrorCodes.ofValue (smc psciCpuOn targetCpu entryPoint argument s).1 ≠ .success) :
    cpuOn smc targetCpu entryPoint argument s =
      (.error (PsciErrorCodes.ofValue (smc psciCpuOn targetCpu entryPoint argument s).1), s) := by
  refine (if_neg h).trans ?_
  rw [hfw.fails _ _ _ _ h]

/-! ## One call -/

/-- What the loop has done with the firmware. -/
def Launched (mpidrEl1 : BitVec 64) (started : σ → BitVec 64 → Option (BitVec 64))
    (stackAddress : ℕ) (s : σ) :
    Bool × σ → Prop
  | (true, s') => ∃ targetCpu, targetCpu ≠ mpidrToAffinity mpidrEl1 ∧ started s targetCpu = none ∧
      started s' = Function.update (started s) targetCpu (some (BitVec.ofNat 64 stackAddress))
  | (false, s') => s' = s

theorem launchStep_spec (hfw : Firmware smc started) {stackAddress : ℕ} {cpuNode : Option DtbNode}
    {x : Iter (Option DtbNode × σ) (Bool × σ)}
    (h : launchStep d mpidrEl1 coreEntry smc stackAddress (cpuNode, s) = .ok x) :
    (∃ cpu, x = .next (some cpu, s)) ∨ ∃ r, x = .done r ∧ Launched mpidrEl1 started stackAddress s r := by
  obtain ⟨_ | cpu, -, h⟩ := Exec.bind_eq_ok.mp h
  · cases h
    exact .inr ⟨_, rfl, rfl⟩
  obtain ⟨_ | ⟨affinity, _⟩, -, h⟩ := Exec.bind_eq_ok.mp h
  · cases h
    exact .inl ⟨_, rfl⟩
  dsimp only at h
  split_ifs at h with hown
  · cases h
    exact .inl ⟨_, rfl⟩
  · by_cases hok : PsciErrorCodes.ofValue (smc psciCpuOn (BitVec.ofNat 64 affinity) coreEntry
        (BitVec.ofNat 64 stackAddress) s).1 = .success
    · rw [cpuOn_eq_ok hok] at h
      cases h
      exact .inr ⟨_, rfl, _, Ne.symm hown, hfw.starts _ _ _ _ hok⟩
    · rw [hfw.cpuOn_eq_error hok] at h
      cases h
      exact .inl ⟨_, rfl⟩

theorem launchLoop_spec (hfw : Firmware smc started) {stackAddress : ℕ} {r : Bool × σ}
    (h : loop (launchStep d mpidrEl1 coreEntry smc stackAddress) Dtb.maxIterations (none, s) = .ok r) :
    Launched mpidrEl1 started stackAddress s r := by
  refine loop_ok (I := fun x : Option DtbNode × σ => x.2 = s) (C := fun _ => True) (fun x x' hx _ hb => ?_)
    (fun x r hx _ hb => ?_) _ _ rfl (throughout_true ..) h
  · obtain ⟨cpuNode, s⟩ := x
    obtain rfl := hx
    obtain ⟨cpu, hnext⟩ | ⟨r, hdone, -⟩ := launchStep_spec hfw hb
    · cases hnext
      rfl
    · cases hdone
  · obtain ⟨cpuNode, s⟩ := x
    obtain rfl := hx
    obtain ⟨cpu, hnext⟩ | ⟨r, hdone, hr⟩ := launchStep_spec hfw hb
    · cases hnext
    · cases hdone
      exact hr

variable {m : MemoryAllocator}

theorem pagesSize_stack : MemoryAllocator.pagesSize (stackSize >>> pageShift) = stackSize := by
  decide

theorem allocatePages_stack : m.allocatePages (stackSize >>> pageShift) 0 = m.allocate stackSize 0 := by
  rw [MemoryAllocator.allocatePages, pagesSize_stack]

/-! ## Which CPU is started -/

/-- The firmware starts the CPU of the node, if it is asked to. -/
def Accepts (d : Dtb) (mpidrEl1 coreEntry : BitVec 64) (smc : Smc σ) (stackAddress : ℕ) (s : σ)
    (cpu : DtbNode) : Prop :=
  ∃ affinity size, d.readRegProperty cpu 0 = .ok (some (affinity, size)) ∧
    mpidrToAffinity mpidrEl1 ≠ BitVec.ofNat 64 affinity ∧
      PsciErrorCodes.ofValue (smc psciCpuOn (BitVec.ofNat 64 affinity) coreEntry
        (BitVec.ofNat 64 stackAddress) s).1 = .success

/-- What an iteration does with the node that it gets. -/
theorem launchStep_node (mpidrEl1 coreEntry : BitVec 64) (stackAddress : ℕ) (s : σ)
    (hfw : Firmware smc started)
    {cpuNode : Option DtbNode} {cpu : DtbNode}
    (hsearch : d.searchNode cpuNodeName cpuNode = .ok (some cpu))
    (hreg : (d.readRegProperty cpu 0).Returns) :
    (Accepts d mpidrEl1 coreEntry smc stackAddress s cpu ∧
      ∃ s', launchStep d mpidrEl1 coreEntry smc stackAddress (cpuNode, s) = .ok (.done (true, s'))) ∨
    (¬Accepts d mpidrEl1 coreEntry smc stackAddress s cpu ∧
      launchStep d mpidrEl1 coreEntry smc stackAddress (cpuNode, s) = .ok (.next (some cpu, s))) := by
  obtain ⟨reg, hreg⟩ := hreg
  cases reg with
  | none =>
    refine .inr ⟨fun ⟨_, _, hsome, _⟩ => ?_, ?_⟩
    · rw [hreg] at hsome
      cases hsome
    · simp only [launchStep, hsearch, hreg, Exec.ok_bind, Exec.pure_eq_ok]
  | some reg =>
    obtain ⟨affinity, size⟩ := reg
    have hiff : Accepts d mpidrEl1 coreEntry smc stackAddress s cpu ↔
        mpidrToAffinity mpidrEl1 ≠ BitVec.ofNat 64 affinity ∧
          PsciErrorCodes.ofValue (smc psciCpuOn (BitVec.ofNat 64 affinity) coreEntry
            (BitVec.ofNat 64 stackAddress) s).1 = .success := by
      refine ⟨fun ⟨affinity', size', hsome, h⟩ => ?_, fun h => ⟨affinity, size, hreg, h⟩⟩
      obtain ⟨rfl, rfl⟩ := Prod.mk.inj (Option.some.inj (Except.ok.inj (hreg.symm.trans hsome)))
      exact h
    simp only [hiff, launchStep, hsearch, hreg, Exec.ok_bind, Exec.pure_eq_ok]
    by_cases hown : mpidrToAffinity mpidrEl1 = BitVec.ofNat 64 affinity
    · exact .inr ⟨fun h => h.1 hown, if_pos hown⟩
    · rw [if_neg hown]
      by_cases hok : PsciErrorCodes.ofValue (smc psciCpuOn (BitVec.ofNat 64 affinity) coreEntry
          (BitVec.ofNat 64 stackAddress) s).1 = .success
      · rw [cpuOn_eq_ok hok]
        exact .inl ⟨⟨hown, hok⟩, _, rfl⟩
      · rw [hfw.cpuOn_eq_error hok]
        exact .inr ⟨fun h => hok h.2, rfl⟩

/-- The loop gets the nodes that a loop which only visits them gets, up to the first that is accepted. -/
theorem launchLoop_visits (mpidrEl1 coreEntry : BitVec 64) (stackAddress : ℕ) (s : σ)
    (hfw : Firmware smc started) {n : ℕ} {cpuNode : Option DtbNode} {before visited : List DtbNode}
    (h : loop (d.visitStep (Dtb.nodeNamed cpuNodeName)) n (cpuNode, before) = .ok visited) :
    ∃ nodes, visited = before ++ nodes ∧ ((∀ cpu ∈ nodes, (d.readRegProperty cpu 0).Returns) →
      ∃ r, loop (launchStep d mpidrEl1 coreEntry smc stackAddress) n (cpuNode, s) = .ok r ∧
        (r.1 = true ↔ ∃ cpu ∈ nodes, Accepts d mpidrEl1 coreEntry smc stackAddress s cpu)) := by
  induction n generalizing cpuNode before with
  | zero => cases h
  | succ n ih =>
    unfold loop at h ⊢
    cases hsearch : d.searchNode cpuNodeName cpuNode with
    | error e =>
      have hvisit : d.visitStep (Dtb.nodeNamed cpuNodeName) (cpuNode, before) = .error e := by
        rw [Dtb.visitStep]
        exact congrArg (· >>= _) hsearch
      rw [hvisit] at h
      cases h
    | ok found =>
      cases found with
      | none =>
        have hvisit : d.visitStep (Dtb.nodeNamed cpuNodeName) (cpuNode, before) = .ok (.done before) := by
          rw [Dtb.visitStep]
          exact congrArg (· >>= _) hsearch
        rw [hvisit] at h
        cases h
        refine ⟨[], (List.append_nil _).symm, fun _ => ⟨(false, s), ?_, by simp⟩⟩
        simp only [launchStep, hsearch, Exec.ok_bind, Exec.pure_eq_ok]
      | some cpu =>
        have hvisit : d.visitStep (Dtb.nodeNamed cpuNodeName) (cpuNode, before) =
            .ok (.next (some cpu, before ++ [cpu])) := by
          rw [Dtb.visitStep]
          exact congrArg (· >>= _) hsearch
        rw [hvisit] at h
        obtain ⟨nodes, rfl, hloop⟩ := ih h
        refine ⟨cpu :: nodes, by simp, fun hreg => ?_⟩
        obtain ⟨hcpu, hnodes⟩ := List.forall_mem_cons.mp hreg
        obtain ⟨haccepts, s', hstep⟩ | ⟨hrejects, hstep⟩ :=
          launchStep_node mpidrEl1 coreEntry stackAddress s hfw hsearch hcpu
        · rw [hstep]
          exact ⟨(true, s'), rfl, iff_of_true rfl ⟨cpu, List.mem_cons_self, haccepts⟩⟩
        · rw [hstep]
          obtain ⟨r, hr, hiff⟩ := hloop hnodes
          refine ⟨r, hr, hiff.trans ⟨?_, ?_⟩⟩
          · rintro ⟨x, hx, ha⟩
            exact ⟨x, List.mem_cons_of_mem _ hx, ha⟩
          · rintro ⟨x, hx, ha⟩
            obtain rfl | hx := List.mem_cons.mp hx
            · exact absurd ha hrejects
            · exact ⟨x, hx, ha⟩

variable {t : DeviceTree}

/-- The nodes that a loop gets are returned by the search. -/
theorem visits_returned {visited : List DtbNode} (h : d.visits (Dtb.nodeNamed cpuNodeName) = .ok visited) :
    ∀ cpu ∈ visited, d.Returned cpu := by
  refine loop_ok (I := fun x : Option DtbNode × List DtbNode => (∀ n ∈ x.1, d.Returned n) ∧
    ∀ n ∈ x.2, d.Returned n)
    (C := fun _ => True) (Q := fun r => ∀ n ∈ r, d.Returned n) (fun x x' hx _ hb => ?_)
    (fun x r hx _ hb => ?_)
    _ _ ⟨by simp, by simp⟩ (throughout_true ..) h
  · obtain ⟨_ | node, hsearch, hb⟩ := Exec.bind_eq_ok.mp hb
    · cases hb
    · cases hb
      have hnode : d.Returned node := .search (c := .name cpuNodeName)
        (by simp [IsString, Criterion.text, cpuNodeName]) hx.1 hsearch
      refine ⟨fun n hn => Option.some.inj hn ▸ hnode, fun n hn => ?_⟩
      obtain hn | hn := List.mem_append.mp hn
      · exact hx.2 n hn
      · rw [List.mem_singleton.mp hn]
        exact hnode
  · obtain ⟨_ | node, -, hb⟩ := Exec.bind_eq_ok.mp hb
    · cases hb
      exact hx.2
    · cases hb

/-- The first pair of `reg` can be read at every node that a search returns. -/
theorem readRegProperty_returns (h : t.StoredIn d) (hvalid : CellsValid (t.nodes d)) {n : DtbNode}
    (hn : d.Returned n) : (d.readRegProperty n 0).Returns := by
  obtain ⟨node, hnode, haddress⟩ := hn.mem_nodes h
  obtain ⟨p, hp, rfl⟩ := mem_nodes_iff.mp hnode
  have htwo := hn.atMostTwo h hvalid
  have hread := readRegProperty_place (DeviceTree.places_storedIn h hp) (hvalid p.node hnode) htwo 0
  obtain ⟨h₁, h₂⟩ := atMostTwo_cellsThrough isReg (hvalid p.node hnode) htwo
  have hsmall : pairBytes (cellsThrough isReg p.node.properties (cellsOf n)) ≤ 16 := by
    rw [pairBytes]
    omega
  rw [if_neg (by omega), haddress] at hread
  exact ⟨_, hread⟩

theorem launchCpu_eq {m₁ m' : MemoryAllocator} {a : ℕ} {launched : Bool}
    (halloc : m.allocate stackSize 0 = .ok (.ok a, m₁)) (htop : a + stackSize < 2 ^ 64)
    (hloop : loop (launchStep d mpidrEl1 coreEntry smc (a + stackSize)) Dtb.maxIterations (none, s) =
      .ok (launched, s')) (hfinish : finishLaunch (a + stackSize) m₁ launched = .ok m') :
    launchCpu d mpidrEl1 coreEntry smc m s = .ok (launched, m', s') := by
  have hpages : m.allocatePages (stackSize >>> pageShift) 0 = .ok (.ok a, m₁) :=
    allocatePages_stack.trans halloc
  refine Exec.bind_eq_ok.mpr ⟨_, hpages, ?_⟩
  refine Exec.bind_eq_ok.mpr ⟨(a, m₁), rfl, ?_⟩
  refine Exec.bind_eq_ok.mpr ⟨_, checkedAdd_of_lt htop, ?_⟩
  refine Exec.bind_eq_ok.mpr ⟨(launched, s'), hloop, ?_⟩
  exact Exec.bind_eq_ok.mpr ⟨m', hfinish, rfl⟩

theorem finishLaunch_eq {m₁ m₂ : MemoryAllocator} {a : ℕ}
    (hfree : m₁.freePages a (stackSize >>> pageShift) = .ok m₂) (launched : Bool) :
    finishLaunch (a + stackSize) m₁ launched = .ok (if launched then m₁ else m₂) := by
  cases launched with
  | true => rfl
  | false =>
    rw [finishLaunch, Nat.add_sub_cancel]
    exact hfree

theorem CallRun.stack_lt (hm : CallRun m) {a : ℕ} {m₁ : MemoryAllocator}
    (halloc : m.allocate stackSize 0 = .ok (.ok a, m₁)) : a + stackSize < 2 ^ 64 := by
  have hsize : stackSize = 0x10000 := rfl
  have hlast : a + (stackSize - 1) ∈ Set.Ico a (a + stackSize) := Set.mem_Ico.mpr (by omega)
  have htop := hm.lt _ (((hm.valid.allocate halloc).2 a rfl).2 hlast)
  omega

/-- With a stack `launch_cpu` always returns. It starts a CPU exactly if the firmware accepts one of
the nodes that a loop over the search gets, and gives the stack back otherwise. -/
theorem launchCpu_iff (h : t.StoredIn d) (hvalid : CellsValid (t.nodes d)) (hfw : Firmware smc started)
    (hm : CallRun m) (hcount : m.freeSize + stackSize < 2 ^ 64) {a : ℕ} {m₁ : MemoryAllocator}
    (halloc : m.allocate stackSize 0 = .ok (.ok a, m₁)) :
    ∃ visited launched m' s', d.visits (Dtb.nodeNamed cpuNodeName) = .ok visited ∧
      launchCpu d mpidrEl1 coreEntry smc m s = .ok (launched, m', s') ∧
      Launched mpidrEl1 started (a + stackSize) s (launched, s') ∧
      (launched = true ↔ ∃ cpu ∈ visited, Accepts d mpidrEl1 coreEntry smc (a + stackSize) s cpu) ∧
      m'.freeBytes = if launched then m₁.freeBytes else m.freeBytes := by
  obtain ⟨visited, hvisits, -⟩ := visits_iff
    (nodeNamed_decides (d := d) (by simp [IsString, cpuNodeName] : IsString cpuNodeName)) h
  obtain ⟨nodes, hnodes, hloop⟩ := launchLoop_visits mpidrEl1 coreEntry (a + stackSize) s hfw hvisits
  obtain rfl : nodes = visited := hnodes.symm
  obtain ⟨⟨launched, s'⟩, hr, hiff⟩ := hloop fun cpu hcpu =>
    readRegProperty_returns h hvalid (visits_returned hvisits cpu hcpu)
  have htop := hm.stack_lt halloc
  have hpages : m.allocatePages (stackSize >>> pageShift) 0 = .ok (.ok a, m₁) :=
    allocatePages_stack.trans halloc
  obtain ⟨m₂, hfree, hF⟩ := hm.freePages_allocated (by rw [pagesSize_stack]; decide)
    (by rwa [pagesSize_stack]) hpages
  refine ⟨nodes, launched, if launched then m₁ else m₂, s', hvisits, ?_, launchLoop_spec hfw hr, hiff, ?_⟩
  · exact launchCpu_eq halloc htop hr (finishLaunch_eq hfree launched)
  · cases launched with
    | true => rfl
    | false => exact hF

/-! ## Runs -/

/-- The stack that ends at `stackAddress`. -/
def stackOf (stackAddress : ℕ) : ℕ × ℕ :=
  (stackAddress - stackSize, stackSize)

/-- Where a CPU is in `launch_cpu`. -/
inductive LaunchPc
  | idle
  | asks (stackAddress : ℕ) (cpuNode : Option DtbNode)
  | givesBack (stackAddress : ℕ)

def LaunchPc.stackAddress : LaunchPc → Option ℕ
  | idle => none
  | asks stackAddress _ => some stackAddress
  | givesBack stackAddress => some stackAddress

/-- The allocator with the blocks in use, the firmware, and what the CPUs do. -/
structure LaunchState (ι σ : Type) where
  m : MemoryAllocator
  live : List (ℕ × ℕ)
  firmware : σ
  pc : ι → LaunchPc

section

variable {ι : Type} [DecidableEq ι]

/-- Where the stacks end : of a CPU that was started, and of one that is in `launch_cpu`. -/
def stackAddressOf (cpus : BitVec 64 → Option (BitVec 64)) (pc : ι → LaunchPc) : BitVec 64 ⊕ ι → Option ℕ
  | .inl targetCpu => (cpus targetCpu).map BitVec.toNat
  | .inr c => (pc c).stackAddress

/-- A step of a CPU in `launch_cpu`, or a call of the allocator by other code, which does not free a
stack. -/
inductive LaunchStep (d : Dtb) (mpidrEl1 : ι → BitVec 64) (coreEntry : BitVec 64) (smc : Smc σ)
    (started : σ → BitVec 64 → Option (BitVec 64)) : LaunchState ι σ → LaunchState ι σ → Prop
  | allocate {s : LaunchState ι σ} {m' : MemoryAllocator} {r : MemoryResult ℕ} (size o : ℕ)
      (he : s.m.allocate size o = .ok (r, m')) :
      LaunchStep d mpidrEl1 coreEntry smc started s
        { s with m := m', live := blocksAfterUse s.live (fun a => (a, size)) r }
  | free {s : LaunchState ι σ} {m' : MemoryAllocator} {r : MemoryResult Unit} (start size : ℕ)
      (hlive : (start, size) ∈ s.live)
      (hother : ∀ o stackAddress, stackAddressOf (started s.firmware) s.pc o = some stackAddress →
        (start, size) ≠ stackOf stackAddress)
      (hsize : 2 ≤ size) (htop : start + size < 2 ^ 64) (he : s.m.free start size = .ok (r, m')) :
      LaunchStep d mpidrEl1 coreEntry smc started s
        { s with m := m', live := blocksAfterFree s.live start size r }
  | begin {s : LaunchState ι σ} {m' : MemoryAllocator} {a stackAddress : ℕ} (c : ι) (hpc : s.pc c = .idle)
      (he : s.m.allocatePages (stackSize >>> pageShift) 0 = .ok (.ok a, m'))
      (hadd : checkedAdd 64 a stackSize = .ok stackAddress) :
      LaunchStep d mpidrEl1 coreEntry smc started s
        { s with
          m := m'
          live := (a, stackSize) :: s.live
          pc := Function.update s.pc c (.asks stackAddress none) }
  | ask {s : LaunchState ι σ} {stackAddress : ℕ} {cpuNode cpu : Option DtbNode} {firmware : σ} (c : ι)
      (hpc : s.pc c = .asks stackAddress cpuNode)
      (he : launchStep d (mpidrEl1 c) coreEntry smc stackAddress (cpuNode, s.firmware) = .ok
        (.next (cpu, firmware))) :
      LaunchStep d mpidrEl1 coreEntry smc started s
        { s with
          firmware := firmware
          pc := Function.update s.pc c (.asks stackAddress cpu) }
  | finish {s : LaunchState ι σ} {stackAddress : ℕ} {cpuNode : Option DtbNode} {launched : Bool}
    {firmware : σ} (c : ι)
      (hpc : s.pc c = .asks stackAddress cpuNode)
      (he : launchStep d (mpidrEl1 c) coreEntry smc stackAddress (cpuNode, s.firmware) =
        .ok (.done (launched, firmware))) :
      LaunchStep d mpidrEl1 coreEntry smc started s
        { s with
          firmware := firmware
          pc := Function.update s.pc c (if launched then .idle else .givesBack stackAddress) }
  | giveBack {s : LaunchState ι σ} {stackAddress : ℕ} {m' : MemoryAllocator} {r : MemoryResult Unit}
    (c : ι)
      (hpc : s.pc c = .givesBack stackAddress)
      (he : s.m.free (stackAddress - stackSize)
        (MemoryAllocator.pagesSize (stackSize >>> pageShift)) = .ok (r, m')) :
      LaunchStep d mpidrEl1 coreEntry smc started s
        { s with
          m := m'
          live := blocksAfterFree s.live (stackAddress - stackSize) stackSize r
          pc := Function.update s.pc c .idle }

/-- From an allocator in use on, with no CPU started. -/
def launchSystem (d : Dtb) (mpidrEl1 : ι → BitVec 64) (coreEntry : BitVec 64) (smc : Smc σ)
    (started : σ → BitVec 64 → Option (BitVec 64)) : System (LaunchState ι σ) where
  Init s := AllocatorRun s.m s.live ∧ (∀ targetCpu, started s.firmware targetCpu = none) ∧
  ∀ c, s.pc c = .idle
  Step := LaunchStep d mpidrEl1 coreEntry smc started

end

/-! ## The stacks -/

section

variable {ω : Type} {live live' : List (ℕ × ℕ)} {F F' : ω → Option ℕ} {A : Set ℕ}

/-- Everybody has a stack of their own, which is in use. -/
structure OwnStacks (live : List (ℕ × ℕ)) (F : ω → Option ℕ) : Prop where
  inUse : ∀ o stackAddress, F o = some stackAddress →
    stackSize ≤ stackAddress ∧ stackAddress < 2 ^ 64 ∧ stackOf stackAddress ∈ live
  own : ∀ o o' stackAddress, F o = some stackAddress → F o' = some stackAddress → o = o'

theorem OwnStacks.keeps (h : OwnStacks live F)
    (hkeeps : ∀ o stackAddress, F o = some stackAddress → stackOf stackAddress ∈ live →
      stackOf stackAddress ∈ live') : OwnStacks live' F := by
  refine ⟨fun o sa ho => ?_, h.own⟩
  obtain ⟨hsize, hlt, hmem⟩ := h.inUse o sa ho
  exact ⟨hsize, hlt, hkeeps o sa ho hmem⟩

theorem update_none_eq_some [DecidableEq ω] {o o' : ω} {sa : ℕ} :
    Function.update F o none o' = some sa ↔ o' ≠ o ∧ F o' = some sa := by
  by_cases ho : o' = o
  · simp [ho]
  · simp [ho]

/-- A stack is given up. -/
theorem OwnStacks.drop [DecidableEq ω] (h : OwnStacks live F) (o : ω) :
    OwnStacks live (Function.update F o none) := by
  refine ⟨fun o₁ sa h₁ => h.inUse o₁ sa (update_none_eq_some.mp h₁).2, fun o₁ o₂ sa h₁ h₂ => ?_⟩
  exact h.own o₁ o₂ sa (update_none_eq_some.mp h₁).2 (update_none_eq_some.mp h₂).2

/-- A stack is passed on to somebody without one. -/
theorem OwnStacks.pass [DecidableEq ω] (h : OwnStacks live F) (o o' : ω) :
    OwnStacks live (Function.update (Function.update F o none) o' (F o)) := by
  have hcases : ∀ x sa, Function.update (Function.update F o none) o' (F o) x = some sa →
      x = o' ∧ F o = some sa ∨ x ≠ o ∧ F x = some sa := by
    intro x sa hx
    by_cases hxo : x = o'
    · rw [hxo, Function.update_self] at hx
      exact .inl ⟨hxo, hx⟩
    · rw [Function.update_of_ne hxo] at hx
      exact .inr (update_none_eq_some.mp hx)
  refine ⟨fun x sa hx => ?_, fun x x' sa hx hx' => ?_⟩
  · obtain ⟨-, ho⟩ | ⟨-, hx⟩ := hcases x sa hx
    · exact h.inUse o sa ho
    · exact h.inUse x sa hx
  · obtain ⟨hxo, ho⟩ | ⟨hne, hFx⟩ := hcases x sa hx <;> obtain ⟨hxo', ho'⟩ | ⟨hne', hFx'⟩ :=
      hcases x' sa hx'
    · exact hxo.trans hxo'.symm
    · exact absurd (h.own x' o sa hFx' ho) hne'
    · exact absurd (h.own x o sa hFx ho') hne
    · exact h.own x x' sa hFx hFx'

theorem BlocksApart.disjoint (h : BlocksApart A live) {b c : ℕ × ℕ} (hb : b ∈ live) (hc : c ∈ live)
    (hne : b ≠ c) : Disjoint (blockBytes b) (blockBytes c) := by
  have hsymm : Std.Symm fun b c : ℕ × ℕ => Disjoint (blockBytes b) (blockBytes c) := ⟨fun _ _ h => h.symm⟩
  exact h.1.forall hb hc hne

theorem not_disjoint_self {b : ℕ × ℕ} (h : 0 < b.2) : ¬Disjoint (blockBytes b) (blockBytes b) := by
  rw [disjoint_self]
  exact Set.Nonempty.ne_empty ⟨b.1, Set.mem_Ico.mpr ⟨le_rfl, by omega⟩⟩

/-- A new block is a stack of nobody yet. -/
theorem OwnStacks.begin [DecidableEq ω] {a : ℕ} (h : OwnStacks live F)
    (hapart : BlocksApart A ((a, stackSize) :: live)) (hlt : a + stackSize < 2 ^ 64) (o : ω) :
    OwnStacks ((a, stackSize) :: live) (Function.update F o (some (a + stackSize))) := by
  have hnew : ∀ o', F o' ≠ some (a + stackSize) := by
    intro o' ho'
    have hmem := (h.inUse o' _ ho').2.2
    rw [stackOf, Nat.add_sub_cancel] at hmem
    exact not_disjoint_self (b := (a, stackSize)) (show 0 < stackSize by decide)
      ((List.pairwise_cons.mp hapart.1).1 _ hmem)
  refine ⟨fun o' sa ho' => ?_, fun o₁ o₂ sa h₁ h₂ => ?_⟩
  · by_cases ho : o' = o
    · rw [ho, Function.update_self] at ho'
      obtain rfl := Option.some.inj ho'
      rw [stackOf, Nat.add_sub_cancel]
      exact ⟨Nat.le_add_left .., hlt, List.mem_cons_self⟩
    · rw [Function.update_of_ne ho] at ho'
      obtain ⟨hsize, hsa, hmem⟩ := h.inUse o' sa ho'
      exact ⟨hsize, hsa, List.mem_cons_of_mem _ hmem⟩
  · by_cases ho₁ : o₁ = o <;> by_cases ho₂ : o₂ = o
    · exact ho₁.trans ho₂.symm
    · rw [ho₁, Function.update_self] at h₁
      rw [Function.update_of_ne ho₂, ← h₁] at h₂
      exact absurd h₂ (hnew o₂)
    · rw [ho₂, Function.update_self] at h₂
      rw [Function.update_of_ne ho₁, ← h₂] at h₁
      exact absurd h₁ (hnew o₁)
    · rw [Function.update_of_ne ho₁] at h₁
      rw [Function.update_of_ne ho₂] at h₂
      exact h.own o₁ o₂ sa h₁ h₂

theorem mem_blocksAfterFree {start size : ℕ} {r : MemoryResult Unit} {b : ℕ × ℕ} (hb : b ∈ live)
    (h : Disjoint (blockBytes b) (blockBytes (start, size))) (hpos : 0 < b.2) (hsize : 0 < size) :
    b ∈ blocksAfterFree live start size r := by
  cases r with
  | error e => exact hb
  | ok u =>
    refine List.mem_filter.mpr ⟨hb, decide_eq_true ?_⟩
    by_contra hover
    have hx : max b.1 start ∈ blockBytes b := Set.mem_Ico.mpr ⟨le_max_left .., by omega⟩
    have hy : max b.1 start ∈ blockBytes (start, size) := Set.mem_Ico.mpr ⟨le_max_right .., by
      simp only
      omega⟩
    exact Set.disjoint_left.mp h hx hy

/-- A block is freed that is the stack of nobody. -/
theorem OwnStacks.free {start size : ℕ} {r : MemoryResult Unit} (h : OwnStacks live F)
    (hapart : BlocksApart A live)
    (hlive : (start, size) ∈ live) (hsize : 0 < size)
    (hother : ∀ o sa, F o = some sa → (start, size) ≠ stackOf sa) :
    OwnStacks (blocksAfterFree live start size r) F := by
  refine h.keeps fun o sa ho hmem => ?_
  exact mem_blocksAfterFree hmem (hapart.disjoint hmem hlive (hother o sa ho).symm)
    (show 0 < stackSize by decide) hsize

end

section

variable {ι : Type} [DecidableEq ι] {mpidrs : ι → BitVec 64} {x y : LaunchState ι σ}

theorem stackAddressOf_update (cpus : BitVec 64 → Option (BitVec 64)) (pc : ι → LaunchPc) (c : ι)
    (next : LaunchPc) :
    stackAddressOf cpus (Function.update pc c next) =
      Function.update (stackAddressOf cpus pc) (.inr c) next.stackAddress := by
  funext o
  cases o with
  | inl targetCpu => rfl
  | inr c' =>
    by_cases hc : c' = c
    · subst hc
      simp [stackAddressOf]
    · simp [stackAddressOf, hc]

theorem stackAddressOf_update_same {cpus : BitVec 64 → Option (BitVec 64)} {pc : ι → LaunchPc}
    {c : ι} {next : LaunchPc}
    (hc : stackAddressOf cpus pc (.inr c) = next.stackAddress) :
    stackAddressOf cpus (Function.update pc c next) = stackAddressOf cpus pc := by
  rw [stackAddressOf_update, ← hc, Function.update_eq_self]

/-- The CPU that has been started has got the stack. -/
theorem stackAddressOf_start {cpus : BitVec 64 → Option (BitVec 64)} {pc : ι → LaunchPc} {c : ι} {sa : ℕ}
    (hlt : sa < 2 ^ 64) (hc : stackAddressOf cpus pc (.inr c) = some sa) (targetCpu : BitVec 64) :
    stackAddressOf (Function.update cpus targetCpu (some (BitVec.ofNat 64 sa)))
      (Function.update pc c .idle) =
      Function.update (Function.update (stackAddressOf cpus pc) (.inr c) none) (.inl targetCpu)
        (stackAddressOf cpus pc (.inr c)) := by
  rw [stackAddressOf_update, hc]
  funext o
  cases o with
  | inl t =>
    by_cases ht : t = targetCpu
    · subst ht
      simpa [stackAddressOf] using hlt
    · simp [stackAddressOf, ht]
  | inr c' =>
    by_cases hc' : c' = c
    · subst hc'
      simp [LaunchPc.stackAddress]
    · simp [stackAddressOf, hc']

/-- What all steps keep. -/
structure LaunchInv (started : σ → BitVec 64 → Option (BitVec 64)) (x : LaunchState ι σ) : Prop where
  run : AllocatorRun x.m x.live
  own : OwnStacks x.live (stackAddressOf (started x.firmware) x.pc)

theorem LaunchInv.step (hfw : Firmware smc started) (h : LaunchInv started x)
    (hs : LaunchStep d mpidrs coreEntry smc started x y) : LaunchInv started y := by
  obtain ⟨hrun, hstacks⟩ := h
  have hapart := (allocatorRun_invariant hrun).2
  have hasks : ∀ {c stackAddress cpuNode}, x.pc c = .asks stackAddress cpuNode →
      stackAddressOf (started x.firmware) x.pc (.inr c) = some stackAddress := by
    intro c stackAddress cpuNode hpc
    rw [stackAddressOf, hpc]
    rfl
  cases hs with
  | @allocate m' r size o he =>
    refine ⟨hrun.allocate size o he, hstacks.keeps fun _ _ _ hmem => ?_⟩
    cases r with
    | error e => exact hmem
    | ok a => exact List.mem_cons_of_mem _ hmem
  | free start size hlive hother hsize htop he =>
    exact ⟨hrun.free start size hsize htop (hapart.2 _ hlive) he, hstacks.free hapart hlive
      (by omega) hother⟩
  | @begin m' a stackAddress c hpc he hadd =>
    obtain ⟨hlt, rfl⟩ := checkedAdd_eq_ok.mp hadd
    rw [allocatePages_stack] at he
    have hrun' : AllocatorRun m' ((a, stackSize) :: x.live) := hrun.allocate stackSize 0 he
    refine ⟨hrun', ?_⟩
    rw [stackAddressOf_update]
    exact hstacks.begin (allocatorRun_invariant hrun').2 hlt _
  | @ask stackAddress cpuNode cpu firmware c hpc he =>
    obtain ⟨cpu', hnext⟩ | ⟨r, hdone, -⟩ := launchStep_spec hfw he
    · cases hnext
      refine ⟨hrun, ?_⟩
      rwa [stackAddressOf_update_same (hasks hpc)]
    · cases hdone
  | @finish stackAddress cpuNode launched firmware c hpc he =>
    refine ⟨hrun, ?_⟩
    obtain ⟨cpu, hnext⟩ | ⟨r, hdone, hlaunched⟩ := launchStep_spec hfw he
    · cases hnext
    cases hdone
    have hc := hasks hpc
    cases launched with
    | false =>
      obtain rfl : firmware = x.firmware := hlaunched
      rwa [if_neg Bool.false_ne_true, stackAddressOf_update_same hc]
    | true =>
      -- The CPU that was started has got the stack.
      obtain ⟨targetCpu, -, -, hstarted⟩ := hlaunched
      rw [show started firmware = _ from hstarted, if_pos rfl, stackAddressOf_start
        (hstacks.inUse _ _ hc).2.1 hc]
      exact hstacks.pass _ _
  | @giveBack stackAddress m' r c hpc he =>
    have hc : stackAddressOf (started x.firmware) x.pc (.inr c) = some stackAddress := by
      rw [stackAddressOf, hpc]
      rfl
    obtain ⟨hsize, hlt, hlive⟩ := hstacks.inUse _ _ hc
    have htop : stackAddress - stackSize + stackSize < 2 ^ 64 := by
      rwa [Nat.sub_add_cancel hsize]
    rw [pagesSize_stack] at he
    have hused := hapart.2 _ hlive
    rw [blockBytes, stackOf] at hused
    refine ⟨hrun.free _ stackSize (show 2 ≤ stackSize by decide) htop hused he, ?_⟩
    rw [stackAddressOf_update]
    refine (hstacks.drop _).free hapart hlive (show 0 < stackSize by decide) fun o sa ho heq => ?_
    -- No other CPU has this stack.
    obtain ⟨hne, ho⟩ := update_none_eq_some.mp ho
    have hsa := (hstacks.inUse o sa ho).1
    obtain rfl : stackAddress = sa := by
      have := (Prod.mk.inj heq).1
      omega
    exact hne (hstacks.own o _ stackAddress ho hc)

theorem launchRun_invariant (hfw : Firmware smc started)
    (h : (launchSystem d mpidrs coreEntry smc started).Reachable x) : LaunchInv started x := by
  refine h.induction (P := LaunchInv started) (fun x hinit => ?_) fun x y _ ih hs => ih.step hfw hs
  obtain ⟨hrun, hnone, hidle⟩ := hinit
  have hempty : stackAddressOf (started x.firmware) x.pc = fun _ => none := by
    funext o
    cases o with
    | inl targetCpu => simp [stackAddressOf, hnone]
    | inr c => simp [stackAddressOf, hidle, LaunchPc.stackAddress]
  refine ⟨hrun, ?_⟩
  rw [hempty]
  exact ⟨fun _ _ hsome => (Option.some_ne_none _ hsome.symm).elim,
    fun _ _ _ hsome => (Option.some_ne_none _ hsome.symm).elim⟩

/-- No byte of the stack of a CPU that was started is free, or belongs to another block in use, or
to the stack of another CPU, in whatever order the CPUs take their steps. -/
theorem launchRun_stacks (hfw : Firmware smc started)
    (h : (launchSystem d mpidrs coreEntry smc started).Reachable x) {targetCpu argument : BitVec 64}
    (hcpu : started x.firmware targetCpu = some argument) :
    Disjoint (blockBytes (stackOf argument.toNat)) x.m.freeBytes ∧
      (∀ b ∈ x.live, b ≠ stackOf argument.toNat → Disjoint (blockBytes (stackOf argument.toNat))
        (blockBytes b)) ∧
      ∀ targetCpu' argument', targetCpu' ≠ targetCpu → started x.firmware targetCpu' = some argument' →
        Disjoint (blockBytes (stackOf argument.toNat)) (blockBytes (stackOf argument'.toNat)) := by
  obtain ⟨hrun, hstacks⟩ := launchRun_invariant hfw h
  have hapart := (allocatorRun_invariant hrun).2
  have howns : ∀ t a, started x.firmware t = some a →
      stackAddressOf (started x.firmware) x.pc (.inl t) = some a.toNat := by
    intro t a hta
    rw [stackAddressOf, hta]
    rfl
  obtain ⟨hsize, -, hlive⟩ := hstacks.inUse _ _ (howns _ _ hcpu)
  refine ⟨hapart.2 _ hlive, fun b hb hne => hapart.disjoint hlive hb hne.symm, fun t a hne hta => ?_⟩
  obtain ⟨hsize', -, hlive'⟩ := hstacks.inUse _ _ (howns _ _ hta)
  refine hapart.disjoint hlive hlive' fun heq => hne ?_
  have hsame : argument.toNat = a.toNat := by
    have := (Prod.mk.inj heq).1
    omega
  exact Sum.inl_injective (hstacks.own _ _ a.toNat (howns _ _ hta) (hsame ▸ howns _ _ hcpu))

end

end

/-! ## An example -/

section Example

open Dtb

/-- The `reg` of a CPU with the affinity 1. -/
def cpuProperties : List FdtProperty :=
  [⟨0, 0, propReg, toBeBytes 0 ++ (toBeBytes 1 ++ toBeBytes 0)⟩]

def cpuTree : DeviceTree where
  nops := 0
  name := []
  properties := []
  children := .node 0 cpuNodeName cpuProperties .nil 0 .nil
  endNops := 0
  finalNops := 0

def cpuDtb : Dtb :=
  cpuTree.flatten (propReg ++ [0#8]) 4096

def cpuPlace : Place :=
  placeOf (cpuDtb.getStructOffset + 8) 0 cpuNodeName cpuProperties .nil 0 .nil [.close 0]

theorem cpuProperties_valid : ∀ p ∈ cpuProperties, p.Valid cpuDtb := by
  rw [cpuProperties, List.forall_mem_singleton]
  exact ⟨by decide, by decide, by decide, by simp [IsString, propReg], by decide +kernel,
    fun h => absurd h (by decide)⟩

theorem cpuTree_storedIn : cpuTree.StoredIn cpuDtb :=
  flatten_storedIn cpuTree _ 4096 (by decide) (by decide)
    ⟨by simp [IsString, cpuTree], by simp [cpuTree],
      ⟨by simp [IsString, cpuNodeName], cpuProperties_valid, trivial, trivial⟩, trivial⟩

theorem cpuProperties_cellsValid : ∀ p ∈ cpuProperties, p.CellsValid := by
  rw [cpuProperties, List.forall_mem_singleton]
  exact fun h => absurd h (by decide)

theorem cpuTree_cellsValid : CellsValid (cpuTree.nodes cpuDtb) := by
  have hnodes : cpuTree.nodes cpuDtb = [⟨cpuDtb.getStructOffset + 8, [], []⟩, cpuPlace.node] := by
    rfl
  rw [hnodes, CellsValid, List.forall_mem_cons, List.forall_mem_singleton]
  exact ⟨List.forall_mem_nil _, cpuProperties_cellsValid⟩

def cpuHandle : DtbNode := ⟨cpuPlace.node.address, defaultAddressCells, defaultSizeCells⟩

theorem searchNode_cpu : cpuDtb.searchNode cpuNodeName none = .ok (some cpuHandle) := by
  have hname : IsString (Criterion.name cpuNodeName).text := by
    simp [IsString, Criterion.text, cpuNodeName]
  have hsearch : cpuDtb.search (Criterion.name cpuNodeName).query none = .ok (some cpuHandle) := by
    rw [search_start (Criterion.decides hname cpuDtb) cpuTree_storedIn]
    decide +kernel
  exact hsearch

theorem readRegProperty_cpu : cpuDtb.readRegProperty cpuHandle 0 = .ok (some (1, 0)) := by
  have hmem : cpuPlace ∈ cpuTree.places cpuDtb := List.mem_cons_of_mem _ (List.mem_cons_self ..)
  have hread := readRegProperty_place (DeviceTree.places_storedIn cpuTree_storedIn hmem)
    cpuProperties_cellsValid (⟨le_rfl, Nat.le_succ 1⟩ : AtMostTwo defaultCells) 0
  rw [show cpuHandle = ⟨cpuPlace.node.address, defaultCells.1, defaultCells.2⟩ from rfl, hread]
  decide +kernel

/-- A firmware that starts every CPU once. -/
def startsOnce : Smc (BitVec 64 → Option (BitVec 64))
  | functionId, targetCpu, _, argument, s =>
    if functionId = psciCpuOn ∧ s targetCpu = none then (0, Function.update s targetCpu (some argument))
    else (-4, s)

theorem startsOnce_firmware : Firmware startsOnce id := by
  refine ⟨fun targetCpu entryPoint argument s h => ?_, fun targetCpu entryPoint argument s h => ?_⟩
  · by_cases hnone : s targetCpu = none
    · exact ⟨hnone, by simp [startsOnce, hnone]⟩
    · rw [startsOnce, if_neg fun h => hnone h.2] at h
      exact absurd h (show PsciErrorCodes.ofValue (-4) ≠ .success by decide)
  · by_cases hnone : s targetCpu = none
    · rw [startsOnce, if_pos ⟨rfl, hnone⟩] at h
      exact absurd (show PsciErrorCodes.ofValue 0 = .success by decide) h
    · rw [startsOnce, if_neg fun h => hnone h.2]

theorem exists_stack : ∃ m m' : MemoryAllocator, CallRun m ∧ AllocatorRun m [] ∧ m.freeSize = 0x20000 ∧
    m.allocate stackSize 0 = .ok (.ok 0x10000, m') :=
  ⟨_, _, .free (m := .new) 0x10000 0x20000 .new (by simp [Inv.new.freeBytes_eq, covered]) rfl,
    AllocatorRun.free (m := .new) 0x10000 0x20000 .new (by decide) (by decide)
      (by simp [Inv.new.freeBytes_eq, covered]) rfl, rfl, rfl⟩

theorem launchCpu_iff_cpu : ∃ (m m₁ : MemoryAllocator) (visited : List DtbNode) (launched : Bool)
    (m' : MemoryAllocator) (s' : BitVec 64 → Option (BitVec 64)),
    cpuDtb.visits (Dtb.nodeNamed cpuNodeName) = .ok visited ∧
      launchCpu cpuDtb 0 0x80000 startsOnce m (fun _ => none) = .ok (launched, m', s') ∧
      Launched 0 id 0x20000 (fun _ => none) (launched, s') ∧
      (launched = true ↔ ∃ cpu ∈ visited, Accepts cpuDtb 0 0x80000 startsOnce 0x20000
        (fun _ => none) cpu) ∧
      m'.freeBytes = if launched then m₁.freeBytes else m.freeBytes := by
  obtain ⟨m, m₁, hm, -, hcount, he⟩ := exists_stack
  exact ⟨m, m₁, launchCpu_iff cpuTree_storedIn cpuTree_cellsValid startsOnce_firmware hm
    (by rw [hcount]; decide) he⟩

theorem launchStep_cpu : launchStep cpuDtb 0 0x80000 startsOnce 0x20000 (none, fun _ => none) =
    .ok (.done (true, Function.update (fun _ => none) 1#64 (some 0x20000#64))) := by
  simp only [launchStep, searchNode_cpu, readRegProperty_cpu, Exec.ok_bind, Exec.pure_eq_ok]
  rw [if_neg (by decide)]
  rfl

/-- The CPU 1 is started. -/
theorem launchRun_stacks_cpu : ∃ x : LaunchState Unit (BitVec 64 → Option (BitVec 64)),
    x.firmware 1#64 = some 0x20000#64 ∧ Disjoint (Set.Ico 0x10000 0x20000) x.m.freeBytes := by
  obtain ⟨m, m', -, hm, -, he⟩ := exists_stack
  have h₀ : (launchSystem cpuDtb (fun _ : Unit => 0) 0x80000 startsOnce id).Reachable
      ⟨m, [], fun _ => none, fun _ => .idle⟩ := .init ⟨hm, fun _ => rfl, fun _ => rfl⟩
  have h₁ := h₀.step (.begin () rfl (allocatePages_stack.trans he)
      (show checkedAdd 64 0x10000 stackSize = .ok 0x20000 by decide))
  obtain ⟨x, h₂, hcpu⟩ : ∃ x : LaunchState Unit (BitVec 64 → Option (BitVec 64)),
      (launchSystem cpuDtb (fun _ : Unit => 0) 0x80000 startsOnce id).Reachable x ∧
        x.firmware 1#64 = some 0x20000#64 :=
    ⟨_, h₁.step (.finish () rfl launchStep_cpu), Function.update_self 1#64 (some 0x20000#64) fun _ => none⟩
  have hfree := (launchRun_stacks startsOnce_firmware h₂ hcpu).1
  rw [show blockBytes (stackOf (0x20000#64).toNat) = Set.Ico 0x10000 0x20000 from rfl] at hfree
  exact ⟨x, hcpu, hfree⟩

end Example

end MiniVisor
