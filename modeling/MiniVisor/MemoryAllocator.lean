import MiniVisor.Links

/-!
# The memory allocator

`memory_allocator.rs` keeps the free memory in a pool of 64 entries. An entry is a range of free
bytes; the entries in use are chained in address order through `previous` and `next`, and each
is in one of twelve free lists, by its size, through `list_prev` and `list_next`.

The source writes through references into the pool. Here an entry is its index, and the pool
has one column for each field of `MemoryEntry`, so that a write to a field changes one column at
one index. A loop that walks a chain has fuel for one step more than the pool has entries : on a
chain that repeats an entry the source would not return, and the model is out of fuel.
-/

namespace MiniVisor

open Machine

def pageShift : ℕ := 12

inductive MemoryError
  | noEntry
  | invalidEntry
  | noMemory
  | invalidRequest
  deriving DecidableEq, Repr

/-- `Result` of the source, with its error type. -/
abbrev MemoryResult (α : Type) := Except MemoryError α

/-- The pool, column by column : field `f` of the entry with index `i` is `f i`. -/
@[ext]
structure MemoryEntryPool where
  previous : ℕ → Option ℕ
  next : ℕ → Option ℕ
  listPrev : ℕ → Option ℕ
  listNext : ℕ → Option ℕ
  startAddress : ℕ → ℕ
  endAddress : ℕ → ℕ
  enabled : ℕ → Bool
  id : ℕ → ℕ

def poolSize : ℕ := 64
def numOfFreeList : ℕ := 12

/-- `get_end_address(address, size)`. -/
def getEndAddress (address size : ℕ) : Exec ℕ := do
  checkedSub (← checkedAdd 64 address size) 1

/-! ## Entries -/

namespace MemoryEntryPool

/-- Every entry is `MemoryEntry::new()`. -/
def new : MemoryEntryPool where
  previous _ := none
  next _ := none
  listPrev _ := none
  listNext _ := none
  startAddress _ := 0
  endAddress _ := 0
  enabled _ := false
  id _ := 0

variable (p : MemoryEntryPool)

def setPrevious (i : ℕ) (v : Option ℕ) : MemoryEntryPool :=
  { p with previous := Function.update p.previous i v }

def setNext (i : ℕ) (v : Option ℕ) : MemoryEntryPool :=
  { p with next := Function.update p.next i v }

def setListPrev (i : ℕ) (v : Option ℕ) : MemoryEntryPool :=
  { p with listPrev := Function.update p.listPrev i v }

def setListNext (i : ℕ) (v : Option ℕ) : MemoryEntryPool :=
  { p with listNext := Function.update p.listNext i v }

/-- The assignments of `set_range`, after its assertion. -/
def withRange (i s e : ℕ) : MemoryEntryPool :=
  { p with startAddress := Function.update p.startAddress i s,
           endAddress := Function.update p.endAddress i e }

/-- `set_range`. -/
def setRange (i s e : ℕ) : Exec MemoryEntryPool := do
  assert (s < e)
  pure (p.withRange i s e)

/-- `get_size`. -/
def getSize (i : ℕ) : Exec ℕ := do
  checkedAdd 64 (← checkedSub (p.endAddress i) (p.startAddress i)) 1

/-- `get_memory_entry` as an option : the reference is the index. -/
def getMemoryEntry (index : ℕ) : Option ℕ :=
  if index < poolSize then some index else none

def getNextEntry (entry : ℕ) : Option ℕ :=
  (p.next entry).bind getMemoryEntry

def getPrevEntry (entry : ℕ) : Option ℕ :=
  (p.previous entry).bind getMemoryEntry

/-- `entry.chain_after_me(other)`. -/
def chainAfterMe (entry other : ℕ) : MemoryEntryPool :=
  (p.setNext entry (some (p.id other))).setPrevious other (some (p.id entry))

/-- The links that `delete` changes in the neighbours. -/
def deleteFromNeighbours (entry : ℕ) : MemoryEntryPool :=
  match p.getPrevEntry entry, p.getNextEntry entry with
  | some previous, some next => p.chainAfterMe previous next
  | some previous, none => p.setNext previous none
  | none, some next => p.setPrevious next none
  | none, none => p

/-- `delete`. -/
def delete (entry : ℕ) : MemoryEntryPool :=
  let q := ((p.deleteFromNeighbours entry).setPrevious entry none).setNext entry none
  { q with enabled := Function.update q.enabled entry false }

/-- The entry `i` after `*e = MemoryEntry::new()` and the two assignments of
`create_memory_entry`. -/
def fresh (i : ℕ) : MemoryEntryPool where
  previous := Function.update p.previous i none
  next := Function.update p.next i none
  listPrev := Function.update p.listPrev i none
  listNext := Function.update p.listNext i none
  startAddress := Function.update p.startAddress i 0
  endAddress := Function.update p.endAddress i 0
  enabled := Function.update p.enabled i true
  id := Function.update p.id i i

/-- `create_memory_entry` : the first entry that is not in use. -/
def createMemoryEntry : Option (ℕ × MemoryEntryPool) :=
  ((List.range poolSize).find? fun i => !p.enabled i).map fun i => (i, p.fresh i)

/-- The first half of `unchain_from_freelist`. -/
def unchainPrev (entry : ℕ) : MemoryEntryPool :=
  match (p.listPrev entry).bind getMemoryEntry with
  | some prevEntry => p.setListNext prevEntry (p.listNext entry)
  | none => p

/-- The second half of `unchain_from_freelist`. -/
def unchainNext (entry : ℕ) : MemoryEntryPool :=
  match (p.listNext entry).bind getMemoryEntry with
  | some nextEntry => p.setListPrev nextEntry (p.listPrev entry)
  | none => p

/-- `unchain_from_freelist`. -/
def unchainFromFreelist (entry : ℕ) : MemoryEntryPool :=
  (((p.unchainPrev entry).unchainNext entry).setListNext entry none).setListPrev entry none

/-! ## Searches -/

/-- One iteration of `search_entry_containing_address_mut`. -/
def containingStep (address entry : ℕ) : Exec (Iter ℕ (Option ℕ)) :=
  if p.startAddress entry < address ∧ p.endAddress entry < address then
    match p.getNextEntry entry with
    | some t => .ok (.next t)
    | none => .ok (.done none)
  else if p.startAddress entry ≤ address ∧ address ≤ p.endAddress entry then .ok (.done (some entry))
  else .ok (.done none)

/-- `search_entry_containing_address_mut`. -/
def searchEntryContainingAddress (firstEntry : Option ℕ) (address : ℕ) : Exec (Option ℕ) :=
  match firstEntry.bind getMemoryEntry with
  | some entry => loop (p.containingStep address) (poolSize + 1) entry
  | none => .ok none

/-- One iteration of `search_entry_previous_address_mut`. -/
def previousStep (address entry : ℕ) : Exec (Iter ℕ (Option ℕ)) :=
  if p.startAddress entry < address then
    match p.getNextEntry entry with
    | some t => .ok (.next t)
    | none =>
      if p.endAddress entry ≤ address then .ok (.done (some entry))
      else .ok (.done (p.getPrevEntry entry))
  else .ok (.done (p.getPrevEntry entry))

/-- `search_entry_previous_address_mut`. -/
def searchEntryPreviousAddress (firstEntry : Option ℕ) (address : ℕ) : Exec (Option ℕ) :=
  match firstEntry.bind getMemoryEntry with
  | some entry => loop (p.previousStep address) (poolSize + 1) entry
  | none => .ok none

end MemoryEntryPool

/-! ## Free lists -/

/-- The loop of `size_to_page_order`, `n` iterations before the last order. -/
def sizeToPageOrderFrom (size : ℕ) : ℕ → ℕ → ℕ
  | 0, order => order
  | n + 1, order =>
    if size > 2 ^ (order + pageShift) then sizeToPageOrderFrom size n (order + 1) else order

/-- `size_to_page_order`. -/
def sizeToPageOrder (size : ℕ) : ℕ :=
  sizeToPageOrderFrom size (numOfFreeList - 1) 0

/-- The allocator. The free lists are the array of the source as a function of the order. -/
structure MemoryAllocator where
  freeSize : ℕ
  firstEntry : Option ℕ
  freeList : ℕ → Option ℕ
  pool : MemoryEntryPool

namespace MemoryEntryPool

variable (p : MemoryEntryPool)

/-- `entry` before the first entry of its list. -/
def linkFirst (entry listEntry : ℕ) : MemoryEntryPool :=
  (p.setListPrev listEntry (some (p.id entry))).setListNext entry (some (p.id listEntry))

/-- `entry` between two entries of its list. -/
def linkBetween (entry listEntry nextEntry : ℕ) : MemoryEntryPool :=
  (((p.setListNext listEntry (some (p.id entry))).setListPrev entry
    (some (p.id listEntry))).setListNext entry (some (p.id nextEntry))).setListPrev nextEntry
      (some (p.id entry))

/-- `entry` after the last entry of its list. -/
def linkLast (entry listEntry : ℕ) : MemoryEntryPool :=
  (p.setListNext listEntry (some (p.id entry))).setListPrev entry (some (p.id listEntry))

/-- One iteration of the loop of `chain_entry_to_free_list`, at `listEntry`. -/
def chainStep (entry listEntry : ℕ) : Exec (Iter ℕ MemoryEntryPool) :=
  match (p.listNext listEntry).bind getMemoryEntry with
  | some nextEntry => do
    let nextSize ← p.getSize nextEntry
    let size ← p.getSize entry
    if size ≤ nextSize then pure (.done (p.linkBetween entry listEntry nextEntry))
    else pure (.next nextEntry)
  | none => .ok (.done (p.linkLast entry listEntry))

end MemoryEntryPool

/-- The pool and the heads of the free lists, which `chain_entry_to_free_list` and its
converse change together. -/
abbrev PoolLists := MemoryEntryPool × (ℕ → Option ℕ)

/-- `entry` leaves the free list of `order`. -/
def unchainFromOrder (pl : PoolLists) (entry order : ℕ) : PoolLists :=
  (pl.1.unchainFromFreelist entry,
    if pl.2 order = some (pl.1.id entry) then Function.update pl.2 order (pl.1.listNext entry)
    else pl.2)

/-- `unchain_entry_from_free_list`. -/
def unchainEntryFromFreeList (pl : PoolLists) (entry : ℕ) : Exec PoolLists := do
  let size ← pl.1.getSize entry
  pure (unchainFromOrder pl entry (sizeToPageOrder size))

/-- The insertion of `chain_entry_to_free_list`, in the free list of `order`. -/
def insertIntoFreeList (pl : PoolLists) (entry order : ℕ) : Exec PoolLists := do
  assert (pl.1.listNext entry = none)
  assert (pl.1.listPrev entry = none)
  match (pl.2 order).bind MemoryEntryPool.getMemoryEntry with
  | some listEntry =>
    let listSize ← pl.1.getSize listEntry
    let size ← pl.1.getSize entry
    if size ≤ listSize then
      pure (pl.1.linkFirst entry listEntry, Function.update pl.2 order (some (pl.1.id entry)))
    else
      let p ← loop (pl.1.chainStep entry) (poolSize + 1) listEntry
      pure (p, pl.2)
  | none => pure (pl.1, Function.update pl.2 order (some (pl.1.id entry)))

/-- `chain_entry_to_free_list`. -/
def chainEntryToFreeList (pl : PoolLists) (entry : ℕ) : Option ℕ → Exec PoolLists
  | some oldSize => do
    let size ← pl.1.getSize entry
    if oldSize = size then pure pl
    else
      let pl := unchainFromOrder pl entry (sizeToPageOrder oldSize)
      insertIntoFreeList pl entry (sizeToPageOrder size)
  | none => do
    let size ← pl.1.getSize entry
    insertIntoFreeList pl entry (sizeToPageOrder size)

/-- `align_address_and_size`. -/
def alignAddressAndSize (address size alignOrder : ℕ) : Exec (ℕ × ℕ) := do
  let alignSize ← checkedShl 64 1 alignOrder
  let mask := bitNot 64 (alignSize - 1)
  let alignedAddress := address &&& mask
  let size ← checkedAdd 64 size (address - alignedAddress)
  let size ← checkedSub size 1
  let size ← checkedAdd 64 (size &&& mask) alignSize
  pure (alignedAddress, size)

/-- `align_address_and_available_size`. -/
def alignAddressAndAvailableSize (start size alignOrder : ℕ) : Exec (ℕ × ℕ) :=
  if start = 0 then .ok (0, size)
  else do
    let alignSize ← checkedShl 64 1 alignOrder
    let mask := bitNot 64 (alignSize - 1)
    let alignedAddress ← checkedAdd 64 ((start - 1) &&& mask) alignSize
    if size > alignedAddress - start then pure (alignedAddress, size - (alignedAddress - start))
    else pure (alignedAddress, 0)

namespace MemoryAllocator

def new : MemoryAllocator where
  freeSize := 0
  firstEntry := none
  freeList _ := none
  pool := .new

variable (m : MemoryAllocator)

/-- `chain_entry_to_free_list` on the allocator's own pool and lists. -/
def rechain (entry : ℕ) (oldSize : Option ℕ) : Exec MemoryAllocator := do
  let (pool, freeList) ← chainEntryToFreeList (m.pool, m.freeList) entry oldSize
  pure { m with pool, freeList }

/-- `unchain_entry_from_free_list`, then `delete`. -/
def deleteEntry (entry : ℕ) : Exec MemoryAllocator := do
  let (pool, freeList) ← unchainEntryFromFreeList (m.pool, m.freeList) entry
  pure { m with pool := pool.delete entry, freeList }

/-! ## Using memory -/

/-- The end of `define_used_memory`. -/
def useSize (size : ℕ) : Exec (MemoryResult Unit × MemoryAllocator) := do
  let freeSize ← checkedSub m.freeSize size
  pure (.ok (), { m with freeSize })

/-- The range is the whole entry : the entry is deleted, unless it is the only one. -/
def useEntry (entry size : ℕ) : Exec (MemoryResult Unit × MemoryAllocator) :=
  match m.pool.previous entry, m.pool.getNextEntry entry with
  | none, none => .ok (.error .noEntry, m)
  | none, some next => do
    let m ← { m with firstEntry := some (m.pool.id next) }.deleteEntry entry
    m.useSize size
  | some _, _ => do
    let m ← m.deleteEntry entry
    m.useSize size

/-- `set_range` on an entry, and its move to the free list of its new size. -/
def resizeEntry (entry start stop : ℕ) : Exec MemoryAllocator := do
  let oldSize ← m.pool.getSize entry
  let pool ← m.pool.setRange entry start stop
  { m with pool }.rechain entry (some oldSize)

/-- The range is the last byte of the entry. -/
def useLastByte (entry start size : ℕ) : Exec (MemoryResult Unit × MemoryAllocator) := do
  let stop ← checkedSub start 1
  let pool ← m.pool.setRange entry (m.pool.startAddress entry) stop
  let oldSize ← checkedAdd 64 (← pool.getSize entry) 1
  let m ← { m with pool }.rechain entry (some oldSize)
  m.useSize size

/-- `new_entry` after `entry`, before the next one. -/
def chainNewEntry (p : MemoryEntryPool) (entry newEntry : ℕ) : MemoryEntryPool :=
  match p.getNextEntry entry with
  | some next => (p.chainAfterMe newEntry next).chainAfterMe entry newEntry
  | none => p.chainAfterMe entry newEntry

/-- The range is inside the entry : the entry keeps what is before it, and a new entry gets
what is after it. -/
def splitEntry (entry start size : ℕ) : Exec (MemoryResult Unit × MemoryAllocator) :=
  match m.pool.createMemoryEntry with
  | none => .ok (.error .noEntry, m)
  | some (newEntry, pool) => do
    let oldSize ← pool.getSize entry
    let newStart ← checkedAdd 64 start size
    let pool ← pool.setRange newEntry newStart (pool.endAddress entry)
    let stop ← checkedSub start 1
    let pool ← pool.setRange entry (pool.startAddress entry) stop
    let m ← { m with pool := chainNewEntry pool entry newEntry }.rechain entry (some oldSize)
    let m ← m.rechain newEntry none
    m.useSize size

/-- `define_used_memory` once it has its entry. -/
def useRange (entry start size : ℕ) : Exec (MemoryResult Unit × MemoryAllocator) :=
  if m.pool.startAddress entry = start then do
    let stop ← getEndAddress start size
    if m.pool.endAddress entry = stop then m.useEntry entry size
    else
      let newStart ← checkedAdd 64 start size
      let m ← m.resizeEntry entry newStart (m.pool.endAddress entry)
      m.useSize size
  else if m.pool.endAddress entry = start then
    if size ≠ 1 then .ok (.error .invalidRequest, m) else m.useLastByte entry start size
  else do
    let stop ← getEndAddress start size
    if m.pool.endAddress entry = stop then
      let newEnd ← checkedSub start 1
      let m ← m.resizeEntry entry (m.pool.startAddress entry) newEnd
      m.useSize size
    else m.splitEntry entry start size

/-- `define_used_memory` with `align_order` 0. -/
def defineUsedRange (start size : ℕ) (targetEntry : Option ℕ) :
    Exec (MemoryResult Unit × MemoryAllocator) :=
  if size = 0 then .ok (.error .invalidRequest, m)
  else if m.freeSize < size then .ok (.error .noMemory, m)
  else
    match targetEntry with
    | some entry => m.useRange entry start size
    | none => do
      match ← m.pool.searchEntryContainingAddress m.firstEntry start with
      | some entry => m.useRange entry start size
      | none => pure (.error .invalidRequest, m)

/-- `define_used_memory`. -/
def defineUsedMemory (start size alignOrder : ℕ) (targetEntry : Option ℕ) :
    Exec (MemoryResult Unit × MemoryAllocator) :=
  if alignOrder = 0 then m.defineUsedRange start size targetEntry
  else if size = 0 then .ok (.error .invalidRequest, m)
  else if m.freeSize < size then .ok (.error .noMemory, m)
  else do
    let (alignedStart, alignedSize) ← alignAddressAndSize start size alignOrder
    m.defineUsedRange alignedStart alignedSize targetEntry

/-- `reserve_memory`. -/
def reserveMemory (startAddress size alignOrder : ℕ) : Exec (MemoryResult Unit × MemoryAllocator) :=
  m.defineUsedMemory startAddress size alignOrder none

/-! ## Freeing memory -/

/-- The entry `define_free_memory` works on : the last one that starts before `start`, or the
first one. -/
def entryBefore (start : ℕ) : Exec (MemoryResult ℕ) := do
  match ← m.pool.searchEntryPreviousAddress m.firstEntry start with
  | some entry => pure (.ok entry)
  | none =>
    match m.firstEntry with
    | none => .error .unwrap
    | some first =>
      match MemoryEntryPool.getMemoryEntry first with
      | some entry => pure (.ok entry)
      | none => pure (.error .invalidEntry)

/-- The range starts where the entry ends : the entry grows to the end of the range. -/
def extendEnd (p : MemoryEntryPool) (entry addressAfterEntry start stop : ℕ) :
    Exec (MemoryEntryPool × Bool) :=
  if addressAfterEntry = start then do
    let p ← p.setRange entry (p.startAddress entry) stop
    pure (p, true)
  else pure (p, false)

/-- The range ends where the first entry starts : the entry grows to the start of the range. -/
def extendStart (p : MemoryEntryPool) (entry start stop : ℕ) (processed : Bool) :
    Exec (MemoryEntryPool × Bool) :=
  if p.previous entry = none then do
    let afterRange ← checkedAdd 64 stop 1
    if p.startAddress entry = afterRange then
      let p ← p.setRange entry start (p.endAddress entry)
      pure (p, true)
    else pure (p, processed)
  else pure (p, processed)

/-- The range ends where the next entry starts : the next entry grows to the start of the
range. -/
def extendNext (next start stop : ℕ) (processed : Bool) : Exec (MemoryAllocator × Bool) := do
  let afterRange ← checkedAdd 64 stop 1
  if m.pool.startAddress next = afterRange then
    let m ← m.resizeEntry next start (m.pool.endAddress next)
    pure (m, true)
  else pure (m, processed)

/-- The entry and the next one touch : the entry takes the range of the next one, which is
deleted. -/
def mergeNext (entry next addressAfterEntry : ℕ) (processed : Bool) : Exec MemoryAllocator := do
  let afterEntry ← checkedAdd 64 (m.pool.endAddress entry) 1
  if m.pool.startAddress next = afterEntry ∨
      (processed = true ∧ m.pool.startAddress next ≤ addressAfterEntry) then
    let pool ← m.pool.setRange entry (m.pool.startAddress entry)
      (max (m.pool.endAddress entry) (m.pool.endAddress next))
    { m with pool }.deleteEntry next
  else pure m

/-- The range has become part of an entry. -/
def finishExtended (entry oldSize size : ℕ) : Exec (MemoryResult Unit × MemoryAllocator) := do
  let freeSize ← checkedAdd 64 m.freeSize size
  let m ← { m with freeSize }.rechain entry (some oldSize)
  pure (.ok (), m)

/-- `new_entry` before `entry`. An entry before them must end before `limit` starts. -/
def linkBefore (entry newEntry limit : ℕ) : Exec MemoryAllocator :=
  match m.pool.getPrevEntry entry with
  | some prevEntry => do
    assert (m.pool.endAddress prevEntry < m.pool.startAddress limit)
    pure { m with pool := (m.pool.chainAfterMe prevEntry newEntry).chainAfterMe newEntry entry }
  | none =>
    pure { m with firstEntry := some (m.pool.id newEntry)
                  pool := m.pool.chainAfterMe newEntry entry }

/-- `new_entry` beside `entry`, on the side its range is on. -/
def linkNewEntry (entry newEntry : ℕ) : Option ℕ → Exec MemoryAllocator
  | some next =>
    if m.pool.endAddress newEntry < m.pool.startAddress entry then
      m.linkBefore entry newEntry newEntry
    else
      pure { m with pool := ((m.pool.setPrevious next (some (m.pool.id newEntry))).setNext newEntry
        (some (m.pool.id next))).chainAfterMe entry newEntry }
  | none =>
    if m.pool.endAddress entry < m.pool.startAddress newEntry then
      pure { m with pool := m.pool.chainAfterMe entry newEntry }
    else m.linkBefore entry newEntry entry

/-- The range becomes a new entry. -/
def insertEntry (entry oldSize start stop size : ℕ) (next : Option ℕ) :
    Exec (MemoryResult Unit × MemoryAllocator) :=
  match m.pool.createMemoryEntry with
  | none => .ok (.error .noEntry, m)
  | some (newEntry, pool) => do
    let pool ← pool.setRange newEntry start stop
    let m ← { m with pool }.linkNewEntry entry newEntry next
    let freeSize ← checkedAdd 64 m.freeSize size
    let m ← { m with freeSize }.rechain entry (some oldSize)
    let m ← m.rechain newEntry none
    pure (.ok (), m)

/-- `define_free_memory` from where it looks at the next entry. `again` is
`define_free_memory`. -/
def freeWithNext (again : MemoryAllocator → ℕ → ℕ → Exec (MemoryResult Unit × MemoryAllocator))
    (entry addressAfterEntry oldSize start stop size : ℕ) (processed : Bool) :
    Option ℕ → Exec (MemoryResult Unit × MemoryAllocator)
  | some next =>
    if m.pool.startAddress next ≤ start then do
      assert (processed = false)
      if stop ≤ m.pool.endAddress next then pure (.error .invalidRequest, m)
      else
        let start ← checkedAdd 64 (m.pool.endAddress next) 1
        let size ← checkedSub stop (m.pool.endAddress next)
        again m start size
    else do
      let (m, processed) ← m.extendNext next start stop processed
      let m ← m.mergeNext entry next addressAfterEntry processed
      if processed then m.finishExtended entry oldSize size
      else m.insertEntry entry oldSize start stop size (some next)
  | none =>
    if processed then m.finishExtended entry oldSize size
    else m.insertEntry entry oldSize start stop size none

/-- `define_free_memory` after the checks for a range that is free already. -/
def freeBeside (again : MemoryAllocator → ℕ → ℕ → Exec (MemoryResult Unit × MemoryAllocator))
    (entry start stop size : ℕ) : Exec (MemoryResult Unit × MemoryAllocator) := do
  let oldSize ← m.pool.getSize entry
  let addressAfterEntry ← checkedAdd 64 (m.pool.endAddress entry) 1
  let (pool, processed) ← extendEnd m.pool entry addressAfterEntry start stop
  let (pool, processed) ← extendStart pool entry start stop processed
  { m with pool }.freeWithNext again entry addressAfterEntry oldSize start stop size processed
    (pool.getNextEntry entry)

/-- `define_free_memory` once it has its entry. -/
def freeRange (again : MemoryAllocator → ℕ → ℕ → Exec (MemoryResult Unit × MemoryAllocator))
    (entry start stop size : ℕ) : Exec (MemoryResult Unit × MemoryAllocator) :=
  if m.pool.startAddress entry ≤ start ∧ stop ≤ m.pool.endAddress entry then
    .ok (.error .invalidRequest, m)
  else if start ≤ m.pool.endAddress entry ∧ m.pool.previous entry ≠ none then do
    let start ← checkedAdd 64 (m.pool.endAddress entry) 1
    let size ← checkedSub stop (m.pool.endAddress entry)
    let size ← checkedAdd 64 size 2
    again m start size
  else if m.pool.endAddress entry = stop then do
    let entrySize ← m.pool.getSize entry
    let size ← checkedSub size entrySize
    again m start size
  else m.freeBeside again entry start stop size

/-- `define_free_memory`, which calls itself for a range that is partly free already. -/
def defineFreeMemory :
    ℕ → MemoryAllocator → ℕ → ℕ → Exec (MemoryResult Unit × MemoryAllocator)
  | 0, _, _, _ => .error .outOfFuel
  | fuel + 1, m, start, size =>
    if size = 0 then .ok (.error .invalidRequest, m)
    else do
      match ← m.entryBefore start with
      | .error e => pure (.error e, m)
      | .ok entry =>
        let stop ← getEndAddress start size
        m.freeRange (defineFreeMemory fuel) entry start stop size

/-- `free`. -/
def free (start size : ℕ) : Exec (MemoryResult Unit × MemoryAllocator) :=
  if m.freeSize = 0 then
    match m.pool.createMemoryEntry with
    | none => .ok (.error .noEntry, m)
    | some (firstEntry, pool) => do
      let stop ← getEndAddress start size
      let pool ← pool.setRange firstEntry start stop
      let m ← { m with pool }.rechain firstEntry none
      pure (.ok (), { m with firstEntry := some (m.pool.id firstEntry), freeSize := size })
  else do
    let (r, m) ← defineFreeMemory (4 * poolSize) m start size
    match r with
    | .error e => pure (.error e, m)
    | .ok () =>
      let freeSize ← checkedAdd 64 m.freeSize size
      pure (.ok (), { m with freeSize })

/-! ## Allocation -/

/-- The address `allocate` takes from an entry, if the entry has room for it. -/
def addressToAllocate (p : MemoryEntryPool) (size alignOrder entry : ℕ) : Exec (Option ℕ) := do
  let entrySize ← p.getSize entry
  if size ≤ entrySize then
    if alignOrder ≠ 0 then
      let (alignedAddress, alignedAvailableSize) ←
        alignAddressAndAvailableSize (p.startAddress entry) entrySize alignOrder
      if alignedAvailableSize < size then pure none else pure (some alignedAddress)
    else pure (some (p.startAddress entry))
  else pure none

/-- One iteration of the inner loop of `allocate`. -/
def allocateStep (size alignOrder entry : ℕ) :
    Exec (Iter ℕ (Option (MemoryResult ℕ × MemoryAllocator))) := do
  match ← addressToAllocate m.pool size alignOrder entry with
  | some address =>
    let (r, m) ← m.defineUsedMemory address size 0 (some entry)
    pure (.done (some (r.map fun _ => address, m)))
  | none =>
    match (m.pool.listNext entry).bind MemoryEntryPool.getMemoryEntry with
    | some n => pure (.next n)
    | none => pure (.done none)

/-- The outer loop of `allocate` over the free lists `i`, `i + 1`, …, `n` of them left. -/
def allocateFrom (size alignOrder : ℕ) : ℕ → ℕ → Exec (MemoryResult ℕ × MemoryAllocator)
  | 0, _ => .ok (.error .noMemory, m)
  | n + 1, i =>
    match m.freeList i with
    | none => allocateFrom size alignOrder n (i + 1)
    | some t =>
      match MemoryEntryPool.getMemoryEntry t with
      | none => .ok (.error .invalidEntry, m)
      | some firstEntry => do
        match ← loop (m.allocateStep size alignOrder) (poolSize + 1) firstEntry with
        | some r => pure r
        | none => allocateFrom size alignOrder n (i + 1)

/-- `allocate`. -/
def allocate (size alignOrder : ℕ) : Exec (MemoryResult ℕ × MemoryAllocator) :=
  if size = 0 then .ok (.error .invalidRequest, m)
  else if m.freeSize ≤ size then .ok (.error .noMemory, m)
  else m.allocateFrom size alignOrder (numOfFreeList - sizeToPageOrder size) (sizeToPageOrder size)

end MemoryAllocator

end MiniVisor
