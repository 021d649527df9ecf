import MiniVisor.MemoryAllocator

/-!
# Stage 2 translation tables

`paging.rs` builds the translation table of a VM. The level of a table is written here as the
number `k` of levels below it, so that level 3 is `k = 0` and the recursion of the source is on
`k`. A descriptor is a 64-bit word of the host's memory, at the address the source reaches it
through its slices.

`allocate_pages` is a parameter, with a state of its own : the tables come from wherever it takes
them. Architecture registers are the values `init_stage2_translation_table` writes and
`map_address_stage2` reads back.
-/

namespace MiniVisor

open Machine

def pageSize : ℕ := 2 ^ pageShift

/-! ## Descriptors -/

namespace Descriptor

def tableAddressMask : BitVec 64 := ((1#64 <<< 52) - 1#64) &&& ~~~(BitVec.ofNat 64 pageSize - 1#64)
def outputAddressMask : BitVec 64 := ((1#64 <<< 50) - 1#64) &&& ~~~(BitVec.ofNat 64 pageSize - 1#64)
def afOffset : ℕ := 10
def af : BitVec 64 := 1#64 <<< afOffset
def shOffset : ℕ := 8
def sh : BitVec 64 := 0b11#64 <<< shOffset
def s2apOffset : ℕ := 6
def s2ap : BitVec 64 := 0b11#64 <<< s2apOffset
def attrIndexOffset : ℕ := 2
def attrIndex : BitVec 64 := 0b1111#64 <<< attrIndexOffset
def attrWriteBack : BitVec 64 := 0b1111#64 <<< attrIndexOffset
/-- `Shareability::InnerShareable`. -/
def innerShareable : BitVec 64 := 0b11#64

variable (d : BitVec 64)

def isTableDescriptor : Bool :=
  d &&& 0b11#64 == 0b11#64

def getNextLevelTableAddress : ℕ :=
  (d &&& tableAddressMask).toNat

def setOutputAddress (outputAddress : ℕ) : BitVec 64 :=
  (d &&& ~~~outputAddressMask) ||| BitVec.ofNat 64 outputAddress ||| af

def setShareability (shareability : BitVec 64) : BitVec 64 :=
  (d &&& ~~~sh) ||| (shareability <<< shOffset)

def setPermission (permission : BitVec 64) : BitVec 64 :=
  (d &&& ~~~s2ap) ||| (permission <<< s2apOffset)

def setMemoryAttributeWriteBack : BitVec 64 :=
  (d &&& ~~~attrIndex) ||| attrWriteBack

/-- The calls both leaf descriptors start with, on a descriptor that was just initialised. -/
def leaf (physicalAddress : ℕ) (permission : BitVec 64) : BitVec 64 :=
  setShareability (setMemoryAttributeWriteBack (setPermission (setOutputAddress 0#64
    physicalAddress) permission)) innerShareable

def page (physicalAddress : ℕ) (permission : BitVec 64) : BitVec 64 :=
  leaf physicalAddress permission ||| 0b11#64

def block (physicalAddress : ℕ) (permission : BitVec 64) : BitVec 64 :=
  leaf physicalAddress permission ||| 0b01#64

def table (nextLevelTableAddress : ℕ) : BitVec 64 :=
  setOutputAddress 0#64 nextLevelTableAddress ||| 0b11#64

end Descriptor

/-! ## Mapping -/

/-- The size of the region of a descriptor with `k` levels below its table. -/
def blockSize (k : ℕ) : ℕ :=
  2 ^ (12 + 9 * k)

/-- What the recursion changes : the three cursors, the memory, and where pages come from. -/
structure MapState (σ : Type) where
  physicalAddress : ℕ
  intermediatePhysicalAddress : ℕ
  remainingSize : ℕ
  memory : ℕ → BitVec 64
  pages : σ

namespace MapState

variable {σ : Type} (s : MapState σ)

/-- Write a leaf descriptor and move the cursors past its region. -/
def writeLeaf (address : ℕ) (descriptor : BitVec 64) (size : ℕ) : Exec (MapState σ) := do
  let physicalAddress ← checkedAdd 64 s.physicalAddress size
  let intermediatePhysicalAddress ← checkedAdd 64 s.intermediatePhysicalAddress size
  let remainingSize ← checkedSub s.remainingSize size
  pure { s with
    physicalAddress, intermediatePhysicalAddress, remainingSize
    memory := Function.update s.memory address descriptor }

end MapState

/-- `n` descriptors from `table` on are initialised. -/
def zeroTable (memory : ℕ → BitVec 64) (table n : ℕ) : ℕ → BitVec 64 :=
  fun a => if table ≤ a ∧ a < table + 8 * n then 0#64 else memory a

section Map

variable {σ : Type} (allocatePages : ℕ → ℕ → σ → Exec (Option ℕ × σ)) (permission : BitVec 64)

/-- The table below a descriptor : the one it points to, or a new one it is made to point to. -/
def nextLevelTable (address : ℕ) (s : MapState σ) : Exec (Except Unit ℕ × MapState σ) :=
  if Descriptor.isTableDescriptor (s.memory address) then
    .ok (.ok (Descriptor.getNextLevelTableAddress (s.memory address)), s)
  else do
    let (r, pages) ← allocatePages 1 12 s.pages
    match r with
    | none => pure (.error (), { s with pages })
    | some next =>
      let memory := Function.update (zeroTable s.memory next 512) address (Descriptor.table next)
      pure (.ok next, { s with memory, pages })

/-- The loops of `_map_address_stage2` over `n` descriptors from `address` on, with the body
`entry`. -/
def mapEntries (entry : ℕ → MapState σ → Exec (Except Unit Unit × MapState σ)) :
    ℕ → ℕ → MapState σ → Exec (Except Unit Unit × MapState σ)
  | 0, _, s => .ok (.ok (), s)
  | n + 1, address, s => do
    let (r, s) ← entry address s
    match r with
    | .error e => pure (.error e, s)
    | .ok () =>
      if s.remainingSize = 0 then pure (.ok (), s) else mapEntries entry n (address + 8) s

/-- `_map_address_stage2` on a table with `k` levels below it, with the body `entry`. -/
def mapTable (entry : ℕ → MapState σ → Exec (Except Unit Unit × MapState σ))
    (k tableAddress numOfDescriptors : ℕ) (s : MapState σ) : Exec (Except Unit Unit × MapState σ) :=
  let index := (s.intermediatePhysicalAddress >>> (12 + 9 * k)) &&& (numOfDescriptors - 1)
  mapEntries entry (numOfDescriptors - index) (tableAddress + 8 * index) s

/-- The body of the loops of `_map_address_stage2`, for a descriptor with `k` levels below its
table. -/
def mapEntry : ℕ → ℕ → MapState σ → Exec (Except Unit Unit × MapState σ)
  | 0, address, s => do
    let s ← s.writeLeaf address (Descriptor.page s.physicalAddress permission) pageSize
    pure (.ok (), s)
  | k + 1, address, s =>
    let mask := blockSize (k + 1) - 1
    if k + 1 ≤ 2 ∧ blockSize (k + 1) ≤ s.remainingSize ∧ s.physicalAddress &&& mask = 0 ∧
        s.intermediatePhysicalAddress &&& mask = 0 then do
      let s ← s.writeLeaf address (Descriptor.block s.physicalAddress permission) (blockSize (k + 1))
      pure (.ok (), s)
    else do
      let (r, s) ← nextLevelTable allocatePages address s
      match r with
      | .error e => pure (.error e, s)
      | .ok next => mapTable (mapEntry k) k next 512 s

end Map

/-! ## Registers -/

/-- The registers of stage 2 translation. -/
structure Stage2Registers where
  vtcrEl2 : BitVec 64
  vttbrEl2 : BitVec 64

def idAa64mmfr0El1Parange : BitVec 64 := 0b1111#64
def vttbrBaddr : BitVec 64 := ((1#64 <<< 47) - 1#64) &&& ~~~1#64
def vtcrEl2Res1 : BitVec 64 := 1#64 <<< 31
def vtcrEl2PsBitsOffset : ℕ := 16
def vtcrEl2Tg0BitsOffset : ℕ := 14
def vtcrEl2Sh0BitsOffset : ℕ := 12
def vtcrEl2Orgn0BitsOffset : ℕ := 10
def vtcrEl2Irgn0BitsOffset : ℕ := 8
def vtcrEl2Sl0BitsOffset : ℕ := 6
def vtcrEl2Sl0 : BitVec 64 := 0b11#64 <<< vtcrEl2Sl0BitsOffset
def vtcrEl2T0szBitsOffset : ℕ := 0
def vtcrEl2T0sz : BitVec 64 := 0b111111#64 <<< vtcrEl2T0szBitsOffset

/-- `number_of_concatenated_page_tables`, with `k` levels below the first. -/
def numberOfConcatenatedPageTables (t0sz k : ℕ) : ℕ :=
  if t0sz > 43 - k * 9 then 1 else 2 ^ (43 - k * 9 - t0sz)

/-- `t0sz` and the initial lookup level that `init_stage2_translation_table` chooses. -/
def initialLookup (ps : BitVec 64) : ℕ × ℕ :=
  if ps = 0b000#64 then (32, 1)
  else if ps = 0b001#64 then (28, 1)
  else if ps = 0b010#64 then (24, 1)
  else if ps = 0b011#64 then (22, 1)
  else if ps = 0b100#64 then (20, 0)
  else if ps = 0b101#64 then (16, 0)
  else (16, 0)

/-- The value `init_stage2_translation_table` writes to `VTCR_EL2`. -/
def vtcrValue (ps : BitVec 64) : BitVec 64 :=
  let (t0sz, initialLookupLevel) := initialLookup ps
  let sl0 : BitVec 64 := if initialLookupLevel = 1 then 0b01#64 else 0b10#64
  vtcrEl2Res1 ||| (ps <<< vtcrEl2PsBitsOffset) ||| (0#64 <<< vtcrEl2Tg0BitsOffset) |||
    (0b11#64 <<< vtcrEl2Sh0BitsOffset) ||| (0b11#64 <<< vtcrEl2Orgn0BitsOffset) |||
    (0b11#64 <<< vtcrEl2Irgn0BitsOffset) ||| (sl0 <<< vtcrEl2Sl0BitsOffset) |||
    (BitVec.ofNat 64 t0sz <<< vtcrEl2T0szBitsOffset)

/-- The number of levels below the first one, from `sl0`. -/
def levelsBelow (sl0 : ℕ) : ℕ :=
  match sl0 with
  | 0b00 => 3 - 2
  | 0b01 => 3 - 1
  | 0b10 => 3 - 0
  | _ => 3 - 3

/-- The fields of `VTCR_EL2` that both the code and the hardware read. -/
def vtcrSl0 (vtcrEl2 : BitVec 64) : ℕ :=
  ((vtcrEl2 &&& vtcrEl2Sl0) >>> vtcrEl2Sl0BitsOffset).toNat

def vtcrT0sz (vtcrEl2 : BitVec 64) : ℕ :=
  ((vtcrEl2 &&& vtcrEl2T0sz) >>> vtcrEl2T0szBitsOffset).toNat

section

variable {σ : Type} (allocatePages : ℕ → ℕ → σ → Exec (Option ℕ × σ))

/-- `init_stage2_translation_table`. -/
def initStage2TranslationTable (idAa64mmfr0El1 : BitVec 64) (memory : ℕ → BitVec 64) (pages : σ) :
    Exec (Stage2Registers × (ℕ → BitVec 64) × σ) := do
  let ps := idAa64mmfr0El1 &&& idAa64mmfr0El1Parange
  let (t0sz, initialLookupLevel) := initialLookup ps
  let numberOfTables := numberOfConcatenatedPageTables t0sz (3 - initialLookupLevel)
  let (r, pages) ← allocatePages numberOfTables (12 + numberOfTables - 1) pages
  match r with
  | none => .error .unwrap
  | some table =>
    pure (⟨vtcrValue ps, BitVec.ofNat 64 table⟩, zeroTable memory table (numberOfTables * 512), pages)

/-- The permission bits of a mapping. -/
def permissionOf (isReadable isWritable : Bool) : BitVec 64 :=
  (BitVec.ofBool isWritable).setWidth 64 <<< 1 ||| (BitVec.ofBool isReadable).setWidth 64

/-- `map_address_stage2`. -/
def mapAddressStage2 (regs : Stage2Registers) (physicalAddress intermediatePhysicalAddress
    mapSize : ℕ) (isReadable isWritable : Bool) (memory : ℕ → BitVec 64) (pages : σ) :
    Exec (Except Unit Unit × (ℕ → BitVec 64) × σ) :=
  if mapSize &&& (2 ^ pageShift - 1) ≠ 0 then .ok (.error (), memory, pages)
  else do
    let tableAddress := (regs.vttbrEl2 &&& vttbrBaddr).toNat
    let k := levelsBelow (vtcrSl0 regs.vtcrEl2)
    let numOfDescriptors := numberOfConcatenatedPageTables (vtcrT0sz regs.vtcrEl2) k * 512
    let (r, s) ← mapTable (mapEntry allocatePages (permissionOf isReadable isWritable) k) k
      tableAddress numOfDescriptors
      ⟨physicalAddress, intermediatePhysicalAddress, mapSize, memory, pages⟩
    pure (r, s.memory, s.pages)

end

end MiniVisor
