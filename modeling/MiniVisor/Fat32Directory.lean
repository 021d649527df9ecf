import Mathlib.Data.List.DropRight
import MiniVisor.Fat32Read

/-!
# The root directory

`Fat32::new` reads the boot sector, the table and the root directory of a volume, and `search_file`
looks for a name in what was read. A directory is the entries of its clusters up to the end marker,
and a file is found under its short name (`lookup`). `search_file` differs from that in four ways :
`Fat32::new` reads one cluster of the directory only, an end marker whose attributes are those of a
long name or a directory is passed over, volume labels are found too, and the spaces inside of a
name are dropped. `searchFile_iff` says when none of this matters. -/

namespace MiniVisor

open Machine

/-! ## Directory entries -/

def fat32AttributeDirectory : BitVec 8 := 0x10
def fat32AttributeLongFileName : BitVec 8 := 0x0F

/-- The size of `DirectoryEntry`. -/
def sizeOfDirectoryEntry : ℕ := 32

structure DirectoryEntry where
  name : Vector (BitVec 8) 8
  nameExtension : Vector (BitVec 8) 3
  attributes : BitVec 8
  startingClusterNumberHigh : ℕ
  startingClusterNumber : ℕ
  fileLength : ℕ
  deriving DecidableEq, Repr

namespace DirectoryEntry

/-- The entry in the memory at `a`. -/
def ofMemory (m : Memory) (a : ℕ) : DirectoryEntry where
  name := .ofFn fun i => m.bytes (a + i)
  nameExtension := .ofFn fun i => m.bytes (a + 8 + i)
  attributes := m.bytes (a + 11)
  startingClusterNumberHigh := m.value (a + 20) 2
  startingClusterNumber := m.value (a + 26) 2
  fileLength := m.value (a + 28) 4

theorem ofMemory_congr {m m' : Memory} {a a' : ℕ} (h : ∀ i < 32, m.bytes (a + i) = m'.bytes (a' + i)) :
    ofMemory m a = ofMemory m' a' := by
  have hbytes : ∀ o i, o + i < 32 → m.bytes (a + o + i) = m'.bytes (a' + o + i) := fun o i hi => by
    rw [Nat.add_assoc, Nat.add_assoc, h (o + i) hi]
  have hvalue : ∀ o n, o + n ≤ 32 → m.value (a + o) n = m'.value (a' + o) n := fun o n hn =>
    Memory.value_shift fun i hi => hbytes o i (by omega)
  rw [ofMemory, ofMemory, hvalue 20 2 (by omega), hvalue 26 2 (by omega), hvalue 28 4 (by omega),
    h 11 (by omega)]
  congr 1
  · exact congrArg _ (funext fun i => h i (by omega))
  · exact congrArg _ (funext fun i => hbytes 8 i (by omega))

variable (e : DirectoryEntry)

/-- What `search_file` returns for the entry. -/
def fileInfo : FileInfo :=
  ⟨(e.startingClusterNumberHigh <<< 16) ||| e.startingClusterNumber, e.fileLength⟩

def isLongFileName : Bool :=
  e.attributes &&& 0x3F == fat32AttributeLongFileName

def isDirectory : Bool :=
  e.attributes &&& fat32AttributeDirectory != 0

def isEnd : Bool :=
  e.name[0] == 0

def isDeleted : Bool :=
  e.name[0] == 0xE5

/-- The first byte of the name, which stands for another one if it is 5. -/
def firstByte : BitVec 8 :=
  if e.name[0] = 0x05 then 0xE5 else e.name[0]

/-- `get_file_name`. -/
def getFileName : Option String :=
  let buffer := e.firstByte :: e.name.toList.tail.filter (· ≠ 0x20#8) ++
    0x2E#8 :: e.nameExtension.toList.filter (· ≠ 0x20#8)
  let name := if buffer.getLast? = some 0x2E#8 then buffer.dropLast else buffer
  String.fromUTF8? ⟨(name.map UInt8.ofBitVec).toArray⟩

end DirectoryEntry

/-- `make_ascii_lowercase`. -/
def makeAsciiLowercase (s : String) : String :=
  .ofList (s.toList.map Char.toLower)

/-- A name is the target as it is, or in lower case. -/
def isSame (target : String) (fileName : Option String) : Bool :=
  fileName.any fun s => s == target || makeAsciiLowercase s == target

/-! ## Loading and searching -/

/-- A volume with its root directory in memory, as `Fat32::new` returns it. -/
structure MountedFat32 extends Fat32 where
  rootDirectoryList : ℕ

namespace MountedFat32

/-- The loop of `search_file` over the entries. -/
def searchEntries (target : String) : List DirectoryEntry → Option FileInfo
  | [] => none
  | e :: entries =>
    if e.isLongFileName then searchEntries target entries
    else if e.isDirectory then searchEntries target entries
    else if e.isEnd then none
    else if e.isDeleted then searchEntries target entries
    else if isSame target e.getFileName then some e.fileInfo
    else searchEntries target entries

/-- The entries in the memory from `a` on. -/
def entriesAt (m : Memory) (a count : ℕ) : List DirectoryEntry :=
  (List.range count).map fun i => .ofMemory m (a + sizeOfDirectoryEntry * i)

/-- `search_file`. -/
def searchFile (v : MountedFat32) (m : Memory) (target : String) : Option FileInfo :=
  searchEntries target (entriesAt m v.rootDirectoryList
    (v.bytesPerSector * v.sectorsPerCluster / sizeOfDirectoryEntry))

end MountedFat32

namespace Fat32

/-- The signature of the boot sector. -/
def fat32Signature : List (BitVec 8) :=
  [0x46, 0x41, 0x54, 0x33, 0x32, 0x20, 0x20, 0x20]

def bytesPerSectorOffset : ℕ := 11
def sectorsPerClusterOffset : ℕ := 13
def numOfReservedClusterOffset : ℕ := 14
def numOfFatsOffset : ℕ := 16
def fatSizeOffset : ℕ := 36
def rootClusterOffset : ℕ := 44
def fat32SignatureOffset : ℕ := 82

variable {σ : Type} (pages : Pages σ)

/-- The root directory is read, after the table. -/
def loadRootDirectory (v : Fat32) (rootCluster fat fatPages : ℕ) (host : BlockHost σ) :
    Exec (Except Unit MountedFat32 × BlockHost σ) := do
  let rootDirectoryPages := ((v.sectorsPerCluster * v.bytesPerSector) >>> pageShift) + 1
  match pages.allocatePages rootDirectoryPages (Nat.log2 v.lbaSize) host.pages with
  | (none, _) => .error .unwrap
  | (some rootDirectoryList, p) =>
    let rootSector ← v.clusterToSector rootCluster
    let (r, host) ← v.readSectors rootDirectoryList rootSector v.sectorsPerCluster true
      { host with pages := p }
    match r with
    | .error e =>
      let p := pages.freePages rootDirectoryList rootDirectoryPages host.pages
      pure (.error e, { host with pages := pages.freePages fat fatPages p })
    | .ok () => pure (.ok ⟨v, rootDirectoryList⟩, host)

/-- `Fat32::new`, with the boot sector in a buffer at `bpb`. -/
def new (bpb baseLba lbaSize : ℕ) (host : BlockHost σ) :
    Exec (Except Unit MountedFat32 × BlockHost σ) := do
  let base ← checkedMul 64 baseLba lbaSize
  let (r, host) := host.blkRead bpb base 512 true
  match r with
  | .error e => pure (.error e, host)
  | .ok () =>
    if (List.range 8).map (fun i => host.memory.bytes (bpb + fat32SignatureOffset + i)) ≠
        fat32Signature then pure (.error (), host)
    else
      let bytesPerSector := host.memory.value (bpb + bytesPerSectorOffset) 2
      let sectorsPerCluster := host.memory.value (bpb + sectorsPerClusterOffset) 1
      let reservedSectors := host.memory.value (bpb + numOfReservedClusterOffset) 2
      let numberOfFats := host.memory.value (bpb + numOfFatsOffset) 2
      let fatSectors := host.memory.value (bpb + fatSizeOffset) 4
      let rootCluster := host.memory.value (bpb + rootClusterOffset) 4
      let fatSize ← checkedMul 64 fatSectors bytesPerSector
      let last ← checkedSub fatSize 1
      let mask ← checkedSub lbaSize 1
      let lbaAlignedFatSize ← checkedAdd 64 (last &&& bitNot 64 mask) lbaSize
      let fatPages := (lbaAlignedFatSize >>> pageShift) + 1
      match pages.allocatePages fatPages (Nat.log2 lbaSize) host.pages with
      | (none, _) => .error .unwrap
      | (some fat, p) =>
        let reserved ← checkedMul 64 reservedSectors bytesPerSector
        let fatAddress ← checkedAdd 64 base reserved
        let (r, host) := { host with pages := p }.blkRead fat fatAddress lbaAlignedFatSize true
        match r with
        | .error e => pure (.error e, { host with pages := pages.freePages fat fatPages host.pages })
        | .ok () =>
          loadRootDirectory pages
            { baseLba, lbaSize, bytesPerSector, sectorsPerCluster, reservedSectors, fatSectors,
              numberOfFats
              fat := fun i => host.memory.value (fat + 4 * i) 4 }
            rootCluster fat fatPages host

end Fat32

/-! ## What a directory says -/

namespace DirectoryEntry

variable (e : DirectoryEntry) (target : String)

def isVolumeLabel : Bool :=
  e.attributes &&& 0x08 != 0

/-- The short name, without the spaces that fill its two parts. -/
def shortName : Option String :=
  let name := (e.firstByte :: e.name.toList.tail).rdropWhile (· = 0x20#8)
  let extension := e.nameExtension.toList.rdropWhile (· = 0x20#8)
  let bytes := if extension = [] then name else name ++ 0x2E#8 :: extension
  String.fromUTF8? ⟨(bytes.map UInt8.ofBitVec).toArray⟩

/-- A regular file of the name. -/
def isFile : Bool :=
  !e.isDeleted && !e.isLongFileName && !e.isDirectory && !e.isVolumeLabel && isSame target e.shortName

/-- What `search_file` takes for a file of the name. -/
def isTaken : Bool :=
  !e.isDeleted && !e.isLongFileName && !e.isDirectory && isSame target e.getFileName

/-- What `search_file` takes for the end marker. -/
def stops : Bool :=
  e.isEnd && !e.isLongFileName && !e.isDirectory

end DirectoryEntry

/-- The entries that count. -/
def beforeEnd (entries : List DirectoryEntry) : List DirectoryEntry :=
  entries.takeWhile fun e => !e.isEnd

/-- The entries that `search_file` looks at. -/
def searched (entries : List DirectoryEntry) : List DirectoryEntry :=
  entries.takeWhile fun e => !e.stops

/-- The file of the name in a directory. -/
def lookup (target : String) (entries : List DirectoryEntry) : Option FileInfo :=
  ((beforeEnd entries).find? (·.isFile target)).map (·.fileInfo)

/-- Nothing goes wrong in the first cluster of a directory, with the entries `later` in the other
clusters. The first entry that is a file of the name, or is taken for one, is both, or the entry
that counts instead has the same cluster and size. If there is none, no file of the name is in the
other clusters, and nothing behind the end marker is taken for one. -/
def Unmistaken (target : String) (later : List DirectoryEntry) : List DirectoryEntry → Prop
  | [] => ∀ e ∈ beforeEnd later, e.isFile target = false
  | e :: entries =>
    if e.isEnd then ∀ x ∈ searched (e :: entries), x.isTaken target = false
    else if e.isFile target then e.isTaken target = true ∨
      ∃ x, (searched entries).find? (·.isTaken target) = some x ∧ x.fileInfo = e.fileInfo
    else if e.isTaken target then
      ∃ x, (beforeEnd (entries ++ later)).find? (·.isFile target) = some x ∧ x.fileInfo = e.fileInfo
    else Unmistaken target later entries

section

variable {target : String}

theorem searched_cons (e : DirectoryEntry) (entries : List DirectoryEntry) :
    searched (e :: entries) = if e.stops then [] else e :: searched entries := by
  cases h : e.stops <;> simp [searched, h]

theorem beforeEnd_cons (e : DirectoryEntry) (entries : List DirectoryEntry) :
    beforeEnd (e :: entries) = if e.isEnd then [] else e :: beforeEnd entries := by
  cases h : e.isEnd <;> simp [beforeEnd, h]

/-- The checks of the loop in `search_file`, in another order. -/
theorem MountedFat32.searchEntries_cons (e : DirectoryEntry) (entries : List DirectoryEntry) :
    searchEntries target (e :: entries) =
      if e.stops then none else if e.isTaken target then some e.fileInfo
        else searchEntries target entries := by
  rw [searchEntries, DirectoryEntry.stops, DirectoryEntry.isTaken]
  cases e.isLongFileName
  · cases e.isDirectory
    · cases e.isEnd
      · cases e.isDeleted <;> simp
      · simp
    · simp
  · simp

theorem MountedFat32.searchEntries_eq : ∀ entries : List DirectoryEntry,
    searchEntries target entries = ((searched entries).find? (·.isTaken target)).map (·.fileInfo)
  | [] => rfl
  | e :: entries => by
    rw [searchEntries_cons, searched_cons, searchEntries_eq entries]
    cases e.stops
    · cases h : e.isTaken target <;> simp [h]
    · simp

theorem lookup_cons (e : DirectoryEntry) (entries : List DirectoryEntry) :
    lookup target (e :: entries) =
      if e.isEnd then none else if e.isFile target then some e.fileInfo else lookup target entries := by
  rw [lookup, beforeEnd_cons]
  cases e.isEnd
  · cases h : e.isFile target <;> simp [h, lookup]
  · simp

theorem DirectoryEntry.stops_of_not_isEnd {e : DirectoryEntry} (h : e.isEnd = false) :
    e.stops = false := by
  simp [stops, h]

/-- The search in the first cluster finds what the whole directory says. -/
theorem searchEntries_eq_lookup_iff (later : List DirectoryEntry) : ∀ entries : List DirectoryEntry,
    MountedFat32.searchEntries target entries = lookup target (entries ++ later) ↔
      Unmistaken target later entries
  | [] => by
    rw [MountedFat32.searchEntries, List.nil_append, Unmistaken, lookup, eq_comm, Option.map_eq_none_iff,
      List.find?_eq_none]
    simp
  | e :: entries => by
    rw [Unmistaken, List.cons_append, lookup_cons]
    cases he : e.isEnd
    · rw [MountedFat32.searchEntries_cons, DirectoryEntry.stops_of_not_isEnd he]
      simp only [Bool.false_eq_true, if_false]
      cases hf : e.isFile target
      · cases ht : e.isTaken target
        · simpa using searchEntries_eq_lookup_iff later entries
        · simp [lookup, eq_comm]
      · cases ht : e.isTaken target
        · simp [MountedFat32.searchEntries_eq]
        · simp
    · rw [if_pos rfl, if_pos rfl, MountedFat32.searchEntries_eq, Option.map_eq_none_iff,
        List.find?_eq_none]
      simp

end

/-! ## The directory of a volume -/

namespace Fat32

/-- The cluster in which the root directory of a volume starts. -/
def rootCluster (disk : ℕ → BitVec 8) (base : ℕ) : ℕ :=
  (Memory.mk disk []).value (base + rootClusterOffset) 4

variable (v : Fat32) (disk : ℕ → BitVec 8)

/-- The number of entries of a cluster. -/
def entriesPerCluster : ℕ :=
  v.bytesPerCluster / sizeOfDirectoryEntry

/-- The entries of a cluster. -/
def clusterEntries (cluster : ℕ) : List DirectoryEntry :=
  MountedFat32.entriesAt ⟨disk, []⟩ (v.clusterAddress cluster) v.entriesPerCluster

/-- The entries of the directory that starts in a cluster, in all clusters of its chain. -/
inductive Directory : ℕ → List DirectoryEntry → Prop
  | last {cluster : ℕ} : v.getNextCluster cluster = none → Directory cluster
    (v.clusterEntries disk cluster)
  | next {cluster next : ℕ} {entries : List DirectoryEntry} : v.getNextCluster cluster = some next →
      Directory next entries → Directory cluster (v.clusterEntries disk cluster ++ entries)

variable {v disk} {σ : Type} {pages : Pages σ}

theorem length_clusterEntries (cluster : ℕ) :
    (v.clusterEntries disk cluster).length = v.entriesPerCluster := by
  simp [clusterEntries, MountedFat32.entriesAt]

theorem Directory.split {cluster : ℕ} {entries : List DirectoryEntry}
    (h : v.Directory disk cluster entries) :
    entries.take v.entriesPerCluster = v.clusterEntries disk cluster := by
  cases h with
  | last => rw [List.take_of_length_le (length_clusterEntries cluster).le]
  | next => rw [List.take_left' (length_clusterEntries cluster)]

theorem clusterToSector_eq_ok {cluster sector : ℕ} (h : v.clusterToSector cluster = .ok sector) :
    sector = v.reservedSectors + v.numberOfFats * v.fatSectors + (cluster - 2) * v.sectorsPerCluster := by
  simp only [clusterToSector, Exec.bind_eq_ok, checkedMul_eq_ok, checkedAdd_eq_ok, checkedSub_eq_ok] at h
  obtain ⟨fats, ⟨-, rfl⟩, first, ⟨-, rfl⟩, index, ⟨-, rfl⟩, sectors, ⟨-, rfl⟩, -, rfl⟩ := h
  rfl

theorem blkRead_eq_ok {buffer address length : ℕ} {isPrivate : Bool} {host host' : BlockHost σ}
    (h : host.blkRead buffer address length isPrivate = (.ok (), host')) :
    512 ∣ length ∧ host' = host.receive buffer address length isPrivate := by
  rw [BlockHost.blkRead] at h
  split_ifs at h with haligned
  · cases h
  · simp only [not_or, not_not, Nat.and_two_pow_sub_one_eq_mod] at haligned
    exact ⟨Nat.dvd_of_mod_eq_zero haligned.2, ((Prod.ext_iff.mp h).2).symm⟩

/-- A cluster was read. -/
theorem readSectors_cluster {cluster sector sectors buffer : ℕ} {isPrivate : Bool}
    {host host' : BlockHost σ}
    (hs : v.clusterToSector cluster = .ok sector)
    (h : v.readSectors buffer sector sectors isPrivate host = .ok (.ok (), host')) :
    512 ∣ sectors * v.bytesPerSector ∧
      host' = host.receive buffer (v.clusterAddress cluster) (sectors * v.bytesPerSector) isPrivate := by
  simp only [readSectors, sectorAddress, Exec.bind_eq_ok, checkedMul_eq_ok, checkedAdd_eq_ok] at h
  obtain ⟨address, ⟨_, ⟨-, rfl⟩, _, ⟨-, rfl⟩, -, rfl⟩, length, ⟨-, rfl⟩, h⟩ := h
  obtain ⟨hdvd, rfl⟩ := blkRead_eq_ok (Except.ok.inj h)
  rw [clusterAddress, clusterToSector_eq_ok hs]
  exact ⟨hdvd, rfl⟩

theorem bytes_receive (host : BlockHost σ) (buffer address : ℕ) (isPrivate : Bool) {length i : ℕ}
    (hi : i < length) : (host.receive buffer address length isPrivate).memory.bytes (buffer + i) =
      host.disk (address + i) := by
  simp only [BlockHost.receive, Memory.fill]
  rw [if_pos (by omega), Nat.add_sub_cancel_left]

/-- The entries of a directory that was read from a cluster. -/
theorem entriesAt_receive (host : BlockHost σ) (buffer cluster length : ℕ) (isPrivate : Bool)
    (hlength : v.entriesPerCluster * sizeOfDirectoryEntry ≤ length) :
    MountedFat32.entriesAt (host.receive buffer (v.clusterAddress cluster) length isPrivate).memory buffer
      v.entriesPerCluster = v.clusterEntries host.disk cluster := by
  refine List.map_congr_left fun i hi => DirectoryEntry.ofMemory_congr fun o ho => ?_
  have hi := List.mem_range.mp hi
  have hlt : sizeOfDirectoryEntry * i + o < length := by
    unfold sizeOfDirectoryEntry at *
    omega
  rw [Nat.add_assoc, Nat.add_assoc, bytes_receive host buffer _ isPrivate hlt]

/-- A mounted volume has the entries of the first cluster of its root directory in memory. -/
theorem loadRootDirectory_spec {rootCluster fat fatPages : ℕ} {host host' : BlockHost σ} {m : MountedFat32}
    (h : loadRootDirectory pages v rootCluster fat fatPages host = .ok (.ok m, host')) :
    m.toFat32 = v ∧ host'.disk = host.disk ∧
      MountedFat32.entriesAt host'.memory m.rootDirectoryList v.entriesPerCluster =
        v.clusterEntries host.disk rootCluster := by
  dsimp only [loadRootDirectory] at h
  rcases halloc : pages.allocatePages (((v.sectorsPerCluster * v.bytesPerSector) >>> pageShift) + 1)
    (Nat.log2 v.lbaSize) host.pages with ⟨_ | list, p⟩
  · rw [halloc] at h
    cases h
  · rw [halloc] at h
    simp only [Exec.bind_eq_ok] at h
    obtain ⟨sector, hsector, ⟨_ | _, host₁⟩, hread, h⟩ := h
    · cases h
    · cases h
      obtain ⟨-, rfl⟩ := readSectors_cluster hsector hread
      exact ⟨rfl, rfl, entriesAt_receive _ list rootCluster _ true (Nat.div_mul_le_self _ _)⟩

/-- What `Fat32::new` has read. -/
theorem new_spec {bpb baseLba lbaSize : ℕ} {host host' : BlockHost σ} {m : MountedFat32}
    (h : new pages bpb baseLba lbaSize host = .ok (.ok m, host')) :
    host'.disk = host.disk ∧
      MountedFat32.entriesAt host'.memory m.rootDirectoryList m.entriesPerCluster =
        m.clusterEntries host.disk (rootCluster host.disk (baseLba * lbaSize)) := by
  dsimp only [new] at h
  simp only [Exec.bind_eq_ok, checkedMul_eq_ok] at h
  obtain ⟨base, ⟨-, rfl⟩, h⟩ := h
  rcases hboot : host.blkRead bpb (baseLba * lbaSize) 512 true with ⟨_ | _, host₁⟩ <;> rw [hboot] at h
  · cases h
  · obtain ⟨-, rfl⟩ := blkRead_eq_ok hboot
    have hroot : (host.receive bpb (baseLba * lbaSize) 512 true).memory.value (bpb + rootClusterOffset) 4 =
        rootCluster host.disk (baseLba * lbaSize) :=
      Memory.value_shift fun i hi => by
        rw [rootClusterOffset, Nat.add_assoc, Nat.add_assoc, bytes_receive host bpb _ true (by omega)]
    dsimp only at h
    split_ifs at h
    · cases h
    · simp only [Exec.bind_eq_ok] at h
      obtain ⟨fatSize, -, last, -, mask, -, alignedSize, -, h⟩ := h
      rcases halloc : pages.allocatePages ((alignedSize >>> pageShift) + 1) (Nat.log2 lbaSize)
        (host.receive bpb (baseLba * lbaSize) 512 true).pages with ⟨_ | fat, p⟩ <;> rw [halloc] at h
      · cases h
      · simp only [Exec.bind_eq_ok] at h
        obtain ⟨reserved, -, fatAddress, -, h⟩ := h
        rcases htable : BlockHost.blkRead { host.receive bpb (baseLba * lbaSize) 512 true with pages := p }
          fat fatAddress alignedSize true with ⟨_ | _, host₂⟩ <;> rw [htable] at h
        · cases h
        · obtain ⟨-, rfl⟩ := blkRead_eq_ok htable
          obtain ⟨hm, hdisk, hentries⟩ := loadRootDirectory_spec h
          rw [hroot, ← hm] at hentries
          exact ⟨hdisk, hentries⟩

end Fat32

/-- When `search_file` finds what the root directory says. -/
theorem searchFile_iff {σ : Type} {pages : Pages σ} {bpb baseLba lbaSize : ℕ} {host host' : BlockHost σ}
    {v : MountedFat32} (h : Fat32.new pages bpb baseLba lbaSize host = .ok (.ok v, host'))
    {entries : List DirectoryEntry}
    (hd : v.Directory host.disk (Fat32.rootCluster host.disk (baseLba * lbaSize)) entries)
    (target : String) :
    v.searchFile host'.memory target = lookup target entries ↔
      Unmistaken target (entries.drop v.entriesPerCluster) (entries.take v.entriesPerCluster) := by
  have hfirst : v.searchFile host'.memory target =
      MountedFat32.searchEntries target (entries.take v.entriesPerCluster) := by
    rw [hd.split, ← (Fat32.new_spec h).2, MountedFat32.searchFile, Fat32.entriesPerCluster,
      Fat32.bytesPerCluster,
      Nat.mul_comm]
  rw [hfirst, ← searchEntries_eq_lookup_iff, List.take_append_drop]

/-! ## A volume -/

/-- A disk with these bytes, and zeroes elsewhere. -/
def diskOf (bytes : List (ℕ × BitVec 8)) : ℕ → BitVec 8 :=
  fun a => (bytes.lookup a).getD 0

/-- A boot sector with one sector in each of the parts of the volume : itself, the table and the
clusters. -/
def bootSector : List (ℕ × BitVec 8) :=
  [(12, 2), (13, 1), (14, 1), (16, 1), (36, 1), (44, 2), (82, 0x46), (83, 0x41), (84, 0x54), (85, 0x33),
    (86, 0x32), (87, 0x20), (88, 0x20), (89, 0x20)]

/-- The name `A` of an entry at `a`. -/
def nameA (a : ℕ) : List (ℕ × BitVec 8) :=
  (a, 0x41) :: (List.range 10).map fun i => (a + 1 + i, 0x20)

def twoPages : Pages ℕ :=
  ⟨fun _ _ n => (some (4096 * (n + 1)), n + 1), fun _ _ n => n⟩

/-- A root directory of two clusters, with one file. -/
def fileDisk : ℕ → BitVec 8 :=
  diskOf (bootSector ++ [(520, 3), (524, 0xFF), (525, 0xFF), (526, 0xFF), (527, 0x0F)] ++ nameA 1024 ++
    [(1050, 4), (1053, 2)])

/-- A volume label of the name, and no file. -/
def labelDisk : ℕ → BitVec 8 :=
  diskOf (bootSector ++ nameA 1024 ++ [(1035, 0x08)])

set_option maxRecDepth 8000 in
theorem searchFile_iff_file : ∃ v host', Fat32.new twoPages 512 0 512 ⟨⟨fun _ => 0, []⟩, fileDisk, 0⟩ =
    .ok (.ok v, host') ∧ ∃ entries,
      (v.searchFile host'.memory "a" = lookup "a" entries ↔
        Unmistaken "a" (entries.drop v.entriesPerCluster) (entries.take v.entriesPerCluster)) ∧
      v.searchFile host'.memory "a" = some ⟨4, 512⟩ := by
  refine ⟨_, _, rfl, _, @searchFile_iff _ twoPages 512 0 512 ⟨⟨fun _ => 0, []⟩, fileDisk, 0⟩ _ _ rfl _
    (@Fat32.Directory.next _ _ _ 3 _ ?_ (.last ?_)) "a", ?_⟩
  · decide +kernel
  · decide +kernel
  · decide +kernel

set_option maxRecDepth 8000 in
/-- The label is found. -/
theorem searchFile_label : ∃ v host', Fat32.new twoPages 512 0 512 ⟨⟨fun _ => 0, []⟩, labelDisk, 0⟩ =
    .ok (.ok v, host') ∧ ∃ entries, v.Directory labelDisk (Fat32.rootCluster labelDisk (0 * 512)) entries ∧
      v.searchFile host'.memory "A" ≠ lookup "A" entries :=
  ⟨_, _, rfl, _, .last (by decide +kernel), by decide +kernel⟩

end MiniVisor
