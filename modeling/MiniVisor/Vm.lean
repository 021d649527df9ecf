import MiniVisor.Paging

/-!
# Virtual machines and their memory

The part of `main.rs` and `vm.rs` that deals with memory : `setup_memory` at boot, `allocate_pages`
and `free_pages` on the one `MEMORY_ALLOCATOR`, the RAM of a `VM`, and the steps of `create_vm` up
to the mapping of that RAM.
-/

namespace MiniVisor

open Machine

/-! ## Pages -/

namespace MemoryAllocator

variable (m : MemoryAllocator)

/-- The size of a number of pages. The shift drops the bits above 64. -/
def pagesSize (numberOfPages : ℕ) : ℕ :=
  (numberOfPages <<< pageShift) % 2 ^ 64

/-- `allocate_pages`. -/
def allocatePages (numberOfPages align : ℕ) : Exec (MemoryResult ℕ × MemoryAllocator) :=
  m.allocate (pagesSize numberOfPages) align

/-- `free_pages` drops the result. -/
def freePages (address numberOfPages : ℕ) : Exec MemoryAllocator := do
  let (_, m) ← m.free address (pagesSize numberOfPages)
  pure m

end MemoryAllocator

/-! ## Boot -/

/-- What `setup_memory` is given : the memory node of the device tree, the device tree itself, the
load segments of the ELF file and the stack pointer. -/
structure BootInfo where
  ram : ℕ × ℕ
  dtb : ℕ × ℕ
  segments : List (ℕ × ℕ)
  stackPointer : ℕ

def stackSize : ℕ := 0x10000

/-- `expect` on the result of a call. -/
def expect {α β : Type} : MemoryResult α × β → Exec (α × β)
  | (.error _, _) => .error .unwrap
  | (.ok a, b) => .ok (a, b)

/-- A range is reserved, or the boot stops. -/
def reserveRange (m : MemoryAllocator) (range : ℕ × ℕ) : Exec MemoryAllocator := do
  let _ ← checkedAdd 64 range.1 range.2
  let (_, m) ← expect (← m.reserveMemory range.1 range.2 0)
  pure m

def reserveRanges : List (ℕ × ℕ) → MemoryAllocator → Exec MemoryAllocator
  | [], m => pure m
  | range :: ranges, m => do
    let m ← reserveRange m range
    reserveRanges ranges m

/-- The range of the stack, below the stack pointer. -/
def stackRange (stackPointer : ℕ) : Exec (ℕ × ℕ) := do
  let last ← checkedSub stackPointer 1
  let stackEnd ← checkedAdd 64 (last &&& bitNot 64 (pageSize - 1)) pageSize
  let stackStart ← checkedSub stackEnd stackSize
  pure (stackStart, stackSize)

/-- `setup_memory`, with the ranges it reserved. -/
def setupMemory (boot : BootInfo) : Exec (MemoryAllocator × List (ℕ × ℕ)) := do
  let _ ← checkedAdd 64 boot.ram.1 boot.ram.2
  let (_, m) ← expect (← MemoryAllocator.new.free boot.ram.1 boot.ram.2)
  let m ← reserveRanges (boot.dtb :: boot.segments) m
  let stack ← stackRange boot.stackPointer
  let m ← reserveRange m stack
  pure (m, boot.dtb :: boot.segments ++ [stack])

/-! ## Virtual machines -/

/-- The RAM of a `VM`. -/
structure VM where
  ramVirtualBaseAddress : ℕ
  ramPhysicalBaseAddress : ℕ
  ramSize : ℕ
  deriving DecidableEq, Repr

namespace VM

variable (vm : VM)

/-- `VM::get_physical_address`. -/
def getPhysicalAddress (virtualAddress : ℕ) : Exec (Option ℕ) := do
  let stop ← checkedAdd 64 vm.ramVirtualBaseAddress vm.ramSize
  if vm.ramVirtualBaseAddress ≤ virtualAddress ∧ virtualAddress < stop then
    let offset ← checkedSub virtualAddress vm.ramVirtualBaseAddress
    let address ← checkedAdd 64 offset vm.ramPhysicalBaseAddress
    pure (some address)
  else pure none

/-- The block of host memory that is the RAM. -/
def ram : ℕ × ℕ :=
  (vm.ramPhysicalBaseAddress, vm.ramSize)

/-- The RAM lies in the 64-bit address spaces of the guest and of the host. -/
structure WellFormed : Prop where
  virtual : vm.ramVirtualBaseAddress + vm.ramSize < 2 ^ 64
  physical : vm.ramPhysicalBaseAddress + vm.ramSize ≤ 2 ^ 64

variable {vm}

/-- The two ranges of `get_physical_address`. -/
theorem WellFormed.getPhysicalAddress (h : vm.WellFormed) (x : ℕ) :
    vm.getPhysicalAddress x = .ok (if vm.ramVirtualBaseAddress ≤ x ∧
      x < vm.ramVirtualBaseAddress + vm.ramSize then
        some (x - vm.ramVirtualBaseAddress + vm.ramPhysicalBaseAddress) else none) := by
  have hv := h.virtual
  have hp := h.physical
  simp only [VM.getPhysicalAddress, checkedAdd, hv, if_true, Exec.ok_bind]
  split_ifs with hx
  · simp only [checkedSub, hx.1, if_true, Exec.ok_bind]
    rw [if_pos (by omega)]
    rfl
  · rfl

variable (vm) in
/-- Where a guest address is in the host. -/
def physical (a : ℕ) : ℕ :=
  a - vm.ramVirtualBaseAddress + vm.ramPhysicalBaseAddress

variable (vm) in
/-- The address is one of the RAM of the guest. -/
def Contains (a : ℕ) : Prop :=
  vm.ramVirtualBaseAddress ≤ a ∧ a < vm.ramVirtualBaseAddress + vm.ramSize

instance (a : ℕ) : Decidable (vm.Contains a) :=
  inferInstanceAs (Decidable (_ ∧ _))

theorem WellFormed.getPhysicalAddress_eq (h : vm.WellFormed) (a : ℕ) :
    vm.getPhysicalAddress a = .ok (if vm.Contains a then
      some (a - vm.ramVirtualBaseAddress + vm.ramPhysicalBaseAddress) else none) :=
  h.getPhysicalAddress a

/-- After the address has been looked up. -/
theorem WellFormed.safe_getPhysicalAddress_bind (h : vm.WellFormed) {a : ℕ} {β : Type}
    {f : Option ℕ → Exec β} : (vm.getPhysicalAddress a >>= f).Safe ↔
      (vm.Contains a → (f (some (a - vm.ramVirtualBaseAddress + vm.ramPhysicalBaseAddress))).Safe) ∧
      (¬vm.Contains a → (f none).Safe) := by
  rw [h.getPhysicalAddress_eq, Exec.ok_bind]
  by_cases hc : vm.Contains a
  · simp [hc]
  · simp [hc]

theorem contains_of_eq_ok {a : ℕ} {r : Option ℕ} (h : vm.getPhysicalAddress a = .ok r) :
    r = none ∧ ¬vm.Contains a ∨ r = some (vm.physical a) ∧ vm.Contains a := by
  simp only [VM.getPhysicalAddress, Exec.bind_eq_ok, checkedAdd_eq_ok] at h
  obtain ⟨stop, ⟨-, rfl⟩, h⟩ := h
  split_ifs at h with hin
  · simp only [Exec.bind_eq_ok, checkedSub_eq_ok, checkedAdd_eq_ok] at h
    obtain ⟨offset, ⟨-, rfl⟩, address, ⟨-, rfl⟩, h⟩ := h
    exact .inr ⟨(Except.ok.inj h).symm, hin⟩
  · exact .inl ⟨(Except.ok.inj h).symm, hin⟩

end VM

def ramVirtualBase : ℕ := 0x40000000
def ramSize : ℕ := 0x10000000

/-- The memory part of `create_vm` : the RAM, the translation table, and the mapping. -/
def createVm {σ : Type} (allocatePages : ℕ → ℕ → σ → Exec (Option ℕ × σ)) (idAa64mmfr0El1 : BitVec 64)
    (memory : ℕ → BitVec 64) (pages : σ) :
    Exec (VM × Stage2Registers × (ℕ → BitVec 64) × σ) := do
  let (r, pages) ← allocatePages (ramSize >>> pageShift) pageShift pages
  match r with
  | none => .error .unwrap
  | some ramPhysicalAddress =>
    let (regs, memory, pages) ← initStage2TranslationTable allocatePages idAa64mmfr0El1 memory pages
    let (r, memory, pages) ← mapAddressStage2 allocatePages regs ramPhysicalAddress ramVirtualBase
      ramSize true true memory pages
    match r with
    | .error _ => .error .unwrap
    | .ok () => pure (⟨ramVirtualBase, ramPhysicalAddress, ramSize⟩, regs, memory, pages)

end MiniVisor
