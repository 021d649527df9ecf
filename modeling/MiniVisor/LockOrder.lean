import MiniVisor.Lock

/-!
# The order of the mutexes

Which mutexes the program takes while it holds others. `LockTree` is what a function does with
mutexes : all that it takes on any path, each with what is taken while its guard lives. A guard
without a name lives to the end of its statement, in a `match` to the end of the last arm.

`lockOrder` numbers the mutexes, and everything that an exception handler or a CPU that boots a VM
does takes them in that order. The one exception is `enable_serial_port_interrupt`. It is called
with the guard of `PL011_DEVICE`, and for a UART without an interrupt it prints, which takes
`PL011_DEVICE` again. So no run deadlocks exactly if the UART has an interrupt (`deadlockFree_iff`).
Panics, which print as well, are left out. -/

namespace MiniVisor

open Machine

/-! ## Nested sections -/

/-- A mutex is taken, and others while it is held. -/
inductive LockTree (κ : Type)
  | take (k : κ) (held : List (LockTree κ))

section

variable {κ : Type}

/-- The code takes `k` while it holds exactly the mutexes `ks`, newest first. -/
inductive Nests : List (LockTree κ) → List κ → κ → Prop
  | here {code held : List (LockTree κ)} {k : κ} (h : .take k held ∈ code) : Nests code [] k
  | under {code held : List (LockTree κ)} {ks : List κ} {j k : κ} (h : .take j held ∈ code)
      (hk : Nests held ks k) : Nests code (ks ++ [j]) k

mutual

/-- Everything is numbered from `n` on, and what is taken under a mutex is numbered above it. -/
def LockTree.sorted (order : κ → ℕ) (n : ℕ) : LockTree κ → Bool
  | .take k held => n ≤ order k && sortedCode order (order k + 1) held

def sortedCode (order : κ → ℕ) (n : ℕ) : List (LockTree κ) → Bool
  | [] => true
  | t :: ts => t.sorted order n && sortedCode order n ts

end

variable {order : κ → ℕ}

theorem sorted_of_mem {n : ℕ} {code : List (LockTree κ)} {t : LockTree κ}
    (h : sortedCode order n code = true)
    (ht : t ∈ code) : t.sorted order n = true := by
  induction code with
  | nil => cases ht
  | cons u ts ih =>
    rw [sortedCode] at h
    obtain ⟨hu, hts⟩ := Bool.and_eq_true_iff.mp h
    obtain rfl | ht := List.mem_cons.mp ht
    · exact hu
    · exact ih hts ht

theorem Nests.mono {code code' : List (LockTree κ)} {ks : List κ} {k : κ} (hk : Nests code ks k)
    (h : code ⊆ code') : Nests code' ks k := by
  cases hk with
  | here hmem => exact .here (h hmem)
  | under hmem hk => exact .under (h hmem) hk

theorem Nests.second {code held held' : List (LockTree κ)} {j k : κ} (h : .take j held ∈ code)
    (hk : .take k held' ∈ held) : Nests code [j] k := by
  have hunder := Nests.under h (.here hk)
  rwa [List.nil_append] at hunder

theorem Nests.sorted {n : ℕ} {code : List (LockTree κ)} {ks : List κ} {k : κ} (hk : Nests code ks k)
    (h : sortedCode order n code = true) : n ≤ order k ∧ ∀ j ∈ ks, order j < order k := by
  induction hk generalizing n with
  | here hmem =>
    obtain ⟨hn, -⟩ := Bool.and_eq_true_iff.mp (sorted_of_mem h hmem)
    exact ⟨of_decide_eq_true hn, fun j hj => absurd hj List.not_mem_nil⟩
  | under hmem _ ih =>
    obtain ⟨hn, hheld⟩ := Bool.and_eq_true_iff.mp (sorted_of_mem h hmem)
    have hn := of_decide_eq_true hn
    obtain ⟨hlt, hks⟩ := ih hheld
    refine ⟨by omega, fun i hi => ?_⟩
    obtain hi | hi := List.mem_append.mp hi
    · exact hks i hi
    · rw [List.mem_singleton.mp hi]
      exact hlt

end

/-! ## The code -/

/-- The mutexes. Those of the devices of a VM come with its number. -/
inductive MutexName
  | console
  | pl011Mmio (vm : ℕ)
  | virtioBlkMmio (vm : ℕ)
  | virtioBlk
  | vmList
  | activeVm
  | gicDistributorMmio (vm : ℕ)
  | gicRedistributorMmio (vm : ℕ)
  | memoryAllocator
  | serialDevice
  | pl011Device
  deriving DecidableEq

/-- The order in which they are taken. -/
def lockOrder : MutexName → ℕ
  | .console => 0
  | .pl011Mmio _ => 1
  | .virtioBlkMmio _ => 1
  | .virtioBlk => 2
  | .vmList => 3
  | .activeVm => 4
  | .gicDistributorMmio _ => 5
  | .gicRedistributorMmio _ => 6
  | .memoryAllocator => 7
  | .serialDevice => 8
  | .pl011Device => 9

/-- Code, by what it does with the mutexes. -/
abbrev LockCode := List (LockTree MutexName)

namespace LockCode

open LockTree

/-! ### Output and memory -/

/-- `print!` and `println!`. The guard of `write_str` lives as long as it writes. -/
def print : LockCode :=
  [take .serialDevice [take .pl011Device []]]

/-- Also `GlobalAllocator::alloc`. -/
def allocatePages : LockCode :=
  [take .memoryAllocator print]

/-- Also `GlobalAllocator::dealloc`. -/
def freePages : LockCode :=
  [take .memoryAllocator []]

/-- `VirtioBlk::operation`, `VirtioBlk::new`. -/
def virtioBlk : LockCode :=
  print ++ allocatePages

/-- `Fat32::read`, `Fat32::write`. -/
def fat32 : LockCode :=
  print ++ allocatePages ++ freePages ++ virtioBlk

/-! ### The devices of a VM -/

def getCurrentVm : LockCode :=
  [take .vmList []]

def getActiveVm : LockCode :=
  [take .activeVm []]

def switchActiveVm : LockCode :=
  [take .vmList [take .activeVm []]]

/-- `trigger_interrupt` of the distributor and of the redistributor, with the node for
`to_inject_interrupt`. -/
def triggerInterrupt : LockCode :=
  print ++ allocatePages

def pl011Mmio (vm : ℕ) : LockCode :=
  [take (.pl011Mmio vm) print]

/-- `VirtioBlkMmio::write`, with `operation`. -/
def virtioBlkMmio (vm : ℕ) : LockCode :=
  [take (.virtioBlkMmio vm) (print ++ getCurrentVm ++ [take .virtioBlk (fat32 ++ print)] ++
    [take (.gicDistributorMmio vm) triggerInterrupt])]

def gicDistributorMmio (vm : ℕ) : LockCode :=
  [take (.gicDistributorMmio vm) triggerInterrupt]

def gicRedistributorMmio (vm : ℕ) : LockCode :=
  [take (.gicRedistributorMmio vm) triggerInterrupt]

/-- `handle_mmio_read`, `handle_mmio_write`. -/
def handleMmio (vm : ℕ) : LockCode :=
  pl011Mmio vm ++ virtioBlkMmio vm ++ gicDistributorMmio vm ++ gicRedistributorMmio vm

def synchronousHandler (vm : ℕ) : LockCode :=
  getCurrentVm ++ handleMmio vm

/-! ### Interrupts -/

/-- `input_uart`. Both guards live to the end of the call of `push`. -/
def inputUart (active : ℕ) : LockCode :=
  getActiveVm ++ [take (.pl011Mmio active) [take (.gicDistributorMmio active) triggerInterrupt]]

def launchCpu : LockCode :=
  allocatePages ++ print ++ freePages

/-- `Console::write`, `Console::reset_buffer`. -/
def console : LockCode :=
  print ++ launchCpu ++ switchActiveVm

def handleInput (active : ℕ) : LockCode :=
  [take .pl011Device []] ++ print ++ [take .console console] ++ inputUart active

def maintenanceInterruptHandler (vm : ℕ) : LockCode :=
  getCurrentVm ++ [take (.gicDistributorMmio vm) []] ++ [take (.gicRedistributorMmio vm) []]

/-- `inject_interrupt_handler`, with the nodes that `pop_front` frees. -/
def injectInterruptHandler (vm : ℕ) : LockCode :=
  getCurrentVm ++ [take (.gicDistributorMmio vm)
    (freePages ++ print ++ [take (.gicRedistributorMmio vm) (freePages ++ print)])]

def genericTimerInterruptHandler (vm : ℕ) : LockCode :=
  getCurrentVm ++ [take (.gicRedistributorMmio vm) triggerInterrupt]

def irqHandler (vm active : ℕ) : LockCode :=
  handleInput active ++ maintenanceInterruptHandler vm ++ injectInterruptHandler vm ++
    genericTimerInterruptHandler vm

/-! ### Boot -/

/-- `create_vm`. `VM_LIST` is held while `Arc::new` and `push_back` allocate. -/
def createVm : LockCode :=
  allocatePages ++ print ++ fat32 ++ [take .vmList allocatePages] ++ switchActiveVm

def coreMain : LockCode :=
  print ++ [take .virtioBlk createVm]

def initSerialPort : LockCode :=
  [take .pl011Device []] ++ [take .serialDevice []]

def setupMemory : LockCode :=
  print ++ [take .memoryAllocator print]

/-- `enable_serial_port_interrupt`, with the guard of `main`. -/
def enableSerialPortInterrupt (pl011IntId : BitVec 32) : LockCode :=
  [take .pl011Device (if pl011IntId = 0#32 then print else [])]

def main (pl011IntId : BitVec 32) : LockCode :=
  initSerialPort ++ print ++ setupMemory ++ enableSerialPortInterrupt pl011IntId ++ virtioBlk ++ fat32 ++
    createVm ++ [take .virtioBlk []]

end LockCode

/-- What a CPU runs, with the number of its VM and that of the active one. -/
inductive EntryPoint
  | main
  | coreMain
  | synchronousHandler (vm : ℕ)
  | irqHandler (vm active : ℕ)

def EntryPoint.code (pl011IntId : BitVec 32) : EntryPoint → LockCode
  | main => LockCode.main pl011IntId
  | coreMain => LockCode.coreMain
  | synchronousHandler vm => LockCode.synchronousHandler vm
  | irqHandler vm active => LockCode.irqHandler vm active

/-- The program takes `k` while it holds `ks`. -/
def ProgramCalls (pl011IntId : BitVec 32) (ks : List MutexName) (k : MutexName) : Prop :=
  ∃ e : EntryPoint, Nests (e.code pl011IntId) ks k

/-- While a CPU waits for a mutex, another one is in a section and does not. -/
def DeadlockFree {ι κ : Type} {σ : κ → Type} {P : Sections κ σ} (S : System (LockState ι P)) : Prop :=
  ∀ s, S.Reachable s → ∀ c, s.Blocked c → ∃ c', (s.cpu c').current.guards ≠ [] ∧ ¬s.Blocked c'

/-! ## Deadlocks -/

theorem sorted_code {pl011IntId : BitVec 32} (h : pl011IntId ≠ 0#32) (e : EntryPoint) :
    sortedCode lockOrder 0 (e.code pl011IntId) = true := by
  cases e with
  | main =>
    simp only [EntryPoint.code, LockCode.main, LockCode.enableSerialPortInterrupt, if_neg h]
    rfl
  | coreMain => rfl
  | synchronousHandler vm => rfl
  | irqHandler vm active => rfl

instance : Preorder MutexName :=
  Preorder.lift lockOrder

theorem lockOrder_le (k : MutexName) : lockOrder k ≤ 9 := by
  cases k <;> simp only [lockOrder] <;> omega

instance : WellFoundedGT MutexName :=
  ⟨Subrelation.wf (fun {j k} (h : lockOrder k < lockOrder j) => by
    have := lockOrder_le j
    show 9 - lockOrder j < 9 - lockOrder k
    omega) (measure fun k => 9 - lockOrder k).wf⟩

section

variable {σ : MutexName → Type} {P : Sections MutexName σ} {ι : Type} [DecidableEq ι]
  {base : ι → BitVec 64} {v : (k : MutexName) → σ k} {pl011IntId : BitVec 32}

/-- The CPU that boots waits for `PL011_DEVICE`, which it holds. -/
theorem not_deadlockFree [Nonempty ι] (hcalls : P.Calls = ProgramCalls 0#32)
    (hstart : ∀ k, ∃ l, P.Start k l) : ¬DeadlockFree (lockSystem P base v) := by
  obtain ⟨c⟩ := ‹Nonempty ι›
  obtain ⟨l, hl⟩ := hstart .pl011Device
  obtain ⟨l', hl'⟩ := hstart .serialDevice
  have hnests : ∀ ks k, Nests [.take .pl011Device LockCode.print] ks k → P.Calls ks k := by
    intro ks k h
    rw [hcalls]
    refine ⟨.main, h.mono fun t ht => ?_⟩
    simp only [EntryPoint.code, LockCode.main, List.mem_append]
    exact .inl (.inl (.inl (.inl (.inr ht))))
  have hdevice := List.mem_singleton_self (LockTree.take MutexName.pl011Device LockCode.print)
  have hserial := List.mem_singleton_self (LockTree.take MutexName.serialDevice [.take .pl011Device []])
  have hnested : Nests [.take .pl011Device LockCode.print] [.pl011Device] .serialDevice :=
    .second hdevice hserial
  have h₀ : (lockSystem P base v).Reachable
      ⟨⟨fun _ => false, v⟩, fun c => ⟨base c, ⟨.outside, []⟩, []⟩⟩ := .init ⟨rfl, rfl⟩
  obtain ⟨s₁, h₁, hm₁, hc₁, hother₁⟩ := lockRun_takes (c := c) h₀ rfl (hnests [] _ (.here hdevice)) rfl hl
  obtain ⟨s₂, h₂, hm₂, hc₂, hother₂⟩ := lockRun_takes (k := .serialDevice) h₁ hc₁
    (hnests [.pl011Device] _ hnested) (by simp [hm₁]) hl'
  have hprint : Nests LockCode.print [.serialDevice] .pl011Device :=
    .second hserial (List.mem_singleton_self (LockTree.take MutexName.pl011Device []))
  have hagain : P.Calls [.serialDevice, .pl011Device] .pl011Device := hnests _ _ (.under hdevice hprint)
  have h₃ := lockRun_code h₂ hc₂ (.call hagain) rfl
  intro hfree
  obtain ⟨c', hguards, hblocked⟩ := hfree _ h₃ c
    ⟨.pl011Device, by simp [LockPc.target], by simp [hm₁, hm₂]⟩
  by_cases hc : c' = c
  · subst hc
    exact hblocked ⟨.pl011Device, by simp [LockPc.target], by simp [hm₁, hm₂]⟩
  · simp [hc, hother₂, hother₁] at hguards

/-- No run deadlocks exactly if the UART has an interrupt. -/
theorem deadlockFree_iff [Nonempty ι] (hcalls : P.Calls = ProgramCalls pl011IntId)
    (hstart : ∀ k, ∃ l, P.Start k l) : DeadlockFree (lockSystem P base v) ↔ pl011IntId ≠ 0#32 := by
  constructor
  · rintro h rfl
    exact not_deadlockFree hcalls hstart h
  · intro hid s hs c hblocked
    refine lockRun_moves (fun ks k hks => ?_) hs hblocked
    rw [hcalls] at hks
    obtain ⟨e, hnests⟩ := hks
    exact (hnests.sorted (sorted_code hid e)).2

end

/-- Sections of the program, without the data. -/
def programSections (pl011IntId : BitVec 32) : Sections MutexName fun _ => Unit where
  Local := Unit
  Calls := ProgramCalls pl011IntId
  Start _ _ := True
  Access _ _ _ := True
  Done _ _ := True

/-- A UART with the interrupt 33, and four CPUs. -/
theorem deadlockFree_iff_spi :
    DeadlockFree (lockSystem (programSections 33#32) (fun _ : Fin 4 => 0#64) fun _ => ()) :=
  (deadlockFree_iff rfl fun _ => ⟨(), trivial⟩).mpr (by decide : (33#32 : BitVec 32) ≠ 0#32)

end MiniVisor
