import MiniVisor.Memory
import MiniVisor.Paging

/-!
# FAT32 files

`fat32.rs` : the cluster chain, and `Fat32::read` and `Fat32::write`. The table of the volume is
held in memory and is a function here. The block device transfers the bytes it is asked for, between
the memory and `disk`. `Pages` is where bounce buffers come from.

The inner loop of both functions looks for the clusters that can be transferred at once
(`runStep`). The outer loop transfers one such run after the other.
-/

namespace MiniVisor

open Machine

/-- The memory of the host, its disk, and where its pages come from. -/
structure BlockHost (σ : Type) where
  memory : Memory
  disk : ℕ → BitVec 8
  pages : σ

/-- `allocate_pages` and `free_pages` on the state of the allocator. -/
structure Pages (σ : Type) where
  allocatePages : ℕ → ℕ → σ → Option ℕ × σ
  freePages : ℕ → ℕ → σ → σ

/-! ## The block device -/

namespace BlockHost

variable {σ : Type} (h : BlockHost σ)

/-- The device writes blocks to the memory. -/
def receive (buffer blockAddress length : ℕ) (isPrivate : Bool) : BlockHost σ :=
  { h with memory := h.memory.fill buffer length isPrivate fun i => h.disk (blockAddress + i) }

/-- `VirtioBlk::read` for the file system, with a device that does not fail and transfers the whole length.
The driver casts the length to 32 bits, which changes only lengths from 4 GiB on. -/
def blkRead (buffer blockAddress length : ℕ) (isPrivate : Bool) : Except Unit Unit × BlockHost σ :=
  if blockAddress &&& (2 ^ 9 - 1) ≠ 0 ∨ length &&& (2 ^ 9 - 1) ≠ 0 then (.error (), h)
  else (.ok (), h.receive buffer blockAddress length isPrivate)

/-- `VirtioBlk::write`, with the same device. -/
def blkWrite (buffer blockAddress length : ℕ) : Except Unit Unit × BlockHost σ :=
  if blockAddress &&& (2 ^ 9 - 1) ≠ 0 ∨ length &&& (2 ^ 9 - 1) ≠ 0 then (.error (), h)
  else (.ok (), { h with
    memory := h.memory.touch buffer length false
    disk := fun a => if blockAddress ≤ a ∧ a < blockAddress + length then
      h.memory.bytes (buffer + (a - blockAddress)) else h.disk a })

/-- `copy_nonoverlapping` out of a buffer of the hypervisor. -/
def copyOut (source destination size : ℕ) : BlockHost σ :=
  let read := h.memory.touch source size true
  { h with memory := read.fill destination size false fun i => h.memory.bytes (source + i) }

end BlockHost

/-! ## The volume -/

/-- A volume. `fat` is the table that `Fat32::new` has read. -/
structure Fat32 where
  baseLba : ℕ
  lbaSize : ℕ
  bytesPerSector : ℕ
  sectorsPerCluster : ℕ
  reservedSectors : ℕ
  fatSectors : ℕ
  numberOfFats : ℕ
  fat : ℕ → ℕ

structure FileInfo where
  entryCluster : ℕ
  fileSize : ℕ
  deriving DecidableEq, Repr

namespace Fat32

variable (v : Fat32)

/-- `cluster_to_sector`. -/
def clusterToSector (cluster : ℕ) : Exec ℕ := do
  let fats ← checkedMul 32 v.numberOfFats v.fatSectors
  let first ← checkedAdd 32 v.reservedSectors fats
  let index ← checkedSub cluster 2
  let sectors ← checkedMul 32 index v.sectorsPerCluster
  checkedAdd 32 first sectors

/-- `get_next_cluster`. -/
def getNextCluster (cluster : ℕ) : Option ℕ :=
  if cluster < v.fatSectors * v.bytesPerSector / 4 then
    if 2 ≤ v.fat cluster ∧ v.fat cluster < 0x0FFFFFF8 then some (v.fat cluster) else none
  else none

def bytesPerCluster : ℕ :=
  v.sectorsPerCluster * v.bytesPerSector

/-- The address of a sector on the block device. -/
def sectorAddress (sector : ℕ) : Exec ℕ := do
  let base ← checkedMul 64 v.baseLba v.lbaSize
  let offset ← checkedMul 64 sector v.bytesPerSector
  checkedAdd 64 base offset

section

variable {σ : Type}

/-- `read_sectors`. -/
def readSectors (buffer baseSector sectors : ℕ) (isPrivate : Bool) (h : BlockHost σ) :
    Exec (Except Unit Unit × BlockHost σ) := do
  let blockAddress ← v.sectorAddress baseSector
  let length ← checkedMul 64 sectors v.bytesPerSector
  pure (h.blkRead buffer blockAddress length isPrivate)

/-- `write_sectors`. -/
def writeSectors (buffer baseSector sectors : ℕ) (h : BlockHost σ) :
    Exec (Except Unit Unit × BlockHost σ) := do
  let blockAddress ← v.sectorAddress baseSector
  let length ← checkedMul 64 sectors v.bytesPerSector
  pure (h.blkWrite buffer blockAddress length)

end

/-! ## One run of clusters -/

/-- What the inner loops of `Fat32::read` and `Fat32::write` have found so far. -/
structure Run where
  sectors : ℕ
  bytes : ℕ
  sectorOffset : ℕ
  dataOffset : ℕ
  dataOffsetBackup : ℕ
  cluster : ℕ
  deriving DecidableEq, Repr

/-- A run that starts at `cluster`, with `dataOffset` bytes to skip. -/
def Run.start (cluster dataOffset : ℕ) : Run :=
  ⟨0, 0, 0, dataOffset, dataOffset, cluster⟩

/-- Whole sectors are skipped. -/
def skipSectors (run : Run) : Exec Run :=
  if v.bytesPerSector < run.dataOffset then do
    let quotient ← checkedDiv run.dataOffset v.bytesPerSector
    let sectorOffset := quotient % 2 ^ 32
    let skipped ← checkedMul 64 sectorOffset v.bytesPerSector
    let dataOffset ← checkedSub run.dataOffset skipped
    pure { run with sectorOffset, dataOffset, dataOffsetBackup := dataOffset }
  else pure run

/-- One iteration of the inner loop of `Fat32::read`. -/
def runStep (length : ℕ) (run : Run) : Exec (Iter Run (Except Unit Run)) := do
  let run ← v.skipSectors run
  let left ← checkedSub length run.bytes
  let left ← checkedAdd 64 left run.dataOffset
  if left ≤ v.bytesPerCluster then
    let quotient ← checkedDiv (max left 1 - 1) v.bytesPerSector
    let more ← checkedAdd 64 1 quotient
    let sectors ← checkedAdd 32 run.sectors (more % 2 ^ 32)
    let rest ← checkedSub length run.bytes
    let bytes ← checkedAdd 64 run.bytes rest
    pure (.done (.ok { run with sectors, bytes }))
  else
    let sectors ← checkedAdd 32 run.sectors v.sectorsPerCluster
    let whole ← checkedSub v.bytesPerCluster run.dataOffset
    let bytes ← checkedAdd 64 run.bytes whole
    match v.getNextCluster run.cluster with
    | none => pure (.done (.error ()))
    | some nextCluster =>
      let adjacent ← checkedAdd 32 run.cluster 1
      if nextCluster ≠ adjacent then pure (.done (.ok { run with sectors, bytes }))
      else pure (.next { run with sectors, bytes, dataOffset := 0, cluster := nextCluster })

/-- One iteration of the inner loop of `Fat32::write`, which refuses less than a sector. -/
def writeRunStep (length : ℕ) (run : Run) : Exec (Iter Run (Except Unit Run)) := do
  let left ← checkedSub length run.bytes
  if left < v.bytesPerSector then pure (.done (.error ()))
  else v.runStep length run

/-- The clusters that are skipped. -/
def skipClusters : ℕ → ℕ → Option ℕ
  | 0, cluster => some cluster
  | n + 1, cluster => (v.getNextCluster cluster).bind (skipClusters n)

/-! ## Reading and writing -/

/-- The state of the outer loops : the offset into the next cluster, the cluster, and how many bytes
are transferred. -/
structure Cursor (σ : Type) where
  dataOffset : ℕ
  cluster : ℕ
  bufferPointer : ℕ
  host : BlockHost σ

/-- More iterations than a loop that moves a 64-bit counter forward can have. -/
def maxIterations : ℕ := 2 ^ 64

section

variable {σ : Type} (pages : Pages σ) (bufferAddress length : ℕ)

/-- The sectors of a run are read to where they belong, through a bounce buffer if the run starts
inside a sector. -/
def readRun (c : Cursor σ) (run : Run) : Exec (Except Unit Unit × BlockHost σ) := do
  let dataOffset := run.dataOffsetBackup
  let size ← checkedMul 64 run.sectors v.bytesPerSector
  let lbaMask ← checkedSub v.lbaSize 1
  let alignedBufferSize ← checkedAdd 64 (size &&& bitNot 64 lbaMask) v.lbaSize
  let numberOfPages := (alignedBufferSize >>> pageShift) + 1
  if dataOffset ≠ 0 then
    match pages.allocatePages numberOfPages 0 c.host.pages with
    | (none, p) => pure (.error (), { c.host with pages := p })
    | (some buffer, p) =>
      let sector ← checkedAdd 32 (← v.clusterToSector c.cluster) run.sectorOffset
      let (r, host) ← v.readSectors buffer sector run.sectors true { c.host with pages := p }
      match r with
      | .error e =>
        pure (.error e, { host with pages := pages.freePages buffer numberOfPages host.pages })
      | .ok () =>
        assert (c.bufferPointer = 0)
        let source ← checkedAdd 64 buffer dataOffset
        let host := host.copyOut source bufferAddress run.bytes
        pure (.ok (), { host with pages := pages.freePages buffer numberOfPages host.pages })
  else
    let buffer ← checkedAdd 64 bufferAddress c.bufferPointer
    let sector ← checkedAdd 32 (← v.clusterToSector c.cluster) run.sectorOffset
    v.readSectors buffer sector run.sectors false c.host

/-- What follows a run : the end, or the next cluster. -/
def nextRun (c : Cursor σ) (run : Run) (host : BlockHost σ) :
    Exec (Iter (Cursor σ) (Except Unit ℕ × BlockHost σ)) := do
  let bufferPointer ← checkedAdd 64 c.bufferPointer run.bytes
  if length = bufferPointer then pure (.done (.ok bufferPointer, host))
  else
    match v.getNextCluster run.cluster with
    | none => pure (.done (.error (), host))
    | some cluster => pure (.next ⟨0, cluster, bufferPointer, host⟩)

/-- One iteration of the outer loop of `Fat32::read`. -/
def readStep (c : Cursor σ) : Exec (Iter (Cursor σ) (Except Unit ℕ × BlockHost σ)) := do
  match ← loop (v.runStep length) maxIterations (.start c.cluster c.dataOffset) with
  | .error e => pure (.done (.error e, c.host))
  | .ok run =>
    let (r, host) ← v.readRun pages bufferAddress c run
    match r with
    | .error e => pure (.done (.error e, host))
    | .ok () => v.nextRun length c run host

/-- One iteration of the outer loop of `Fat32::write`. -/
def writeStep (c : Cursor σ) : Exec (Iter (Cursor σ) (Except Unit ℕ × BlockHost σ)) := do
  match ← loop (v.writeRunStep length) maxIterations (.start c.cluster c.dataOffset) with
  | .error e => pure (.done (.error e, c.host))
  | .ok run =>
    if run.dataOffsetBackup ≠ 0 then pure (.done (.error (), c.host))
    else
      let sector ← checkedAdd 32 (← v.clusterToSector c.cluster) run.sectorOffset
      let buffer ← checkedAdd 64 bufferAddress c.bufferPointer
      let (r, host) ← v.writeSectors buffer sector run.sectors c.host
      match r with
      | .error e => pure (.done (.error e, host))
      | .ok () => v.nextRun length c run host

/-- The clusters up to `offset` are skipped, and the outer loop with the body `step` runs. -/
def transfer (step : Cursor σ → Exec (Iter (Cursor σ) (Except Unit ℕ × BlockHost σ)))
    (file : FileInfo) (offset : ℕ) (host : BlockHost σ) : Exec (Except Unit ℕ × BlockHost σ) := do
  let clustersToSkip ← checkedDiv offset v.bytesPerCluster
  let skipped ← checkedMul 64 clustersToSkip v.bytesPerCluster
  let dataOffset ← checkedSub offset skipped
  match v.skipClusters clustersToSkip file.entryCluster with
  | none => pure (.error (), host)
  | some cluster => loop step maxIterations ⟨dataOffset, cluster, 0, host⟩

end

/-- A trap beyond the first lines of `Fat32::read` or `Fat32::write`. -/
def inside {α : Type} : Exec α → Exec α
  | .error t => .error (.callee t)
  | .ok a => .ok a

/-- The length of a transfer stops at the end of the file; `none` if there is nothing. -/
def clampLength (file : FileInfo) (offset length : ℕ) : Exec (Option ℕ) := do
  let stop ← checkedAdd 64 offset length
  if file.fileSize < stop then
    if file.fileSize ≤ offset then pure none else pure (some (file.fileSize - offset))
  else pure (some length)

section

variable {σ : Type}

/-- `Fat32::read`. -/
def read (pages : Pages σ) (file : FileInfo) (bufferAddress offset length : ℕ)
    (host : BlockHost σ) : Exec (Except Unit ℕ × BlockHost σ) := do
  match ← clampLength file offset length with
  | none => pure (.ok 0, host)
  | some length => inside (v.transfer (v.readStep pages bufferAddress length) file offset host)

/-- `Fat32::write`. -/
def write (file : FileInfo) (bufferAddress offset length : ℕ) (host : BlockHost σ) :
    Exec (Except Unit ℕ × BlockHost σ) := do
  match ← clampLength file offset length with
  | none => pure (.ok 0, host)
  | some length => inside (v.transfer (v.writeStep bufferAddress length) file offset host)

end

end Fat32

end MiniVisor
