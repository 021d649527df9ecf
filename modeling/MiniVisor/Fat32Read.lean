import MiniVisor.Fat32

/-!
# What `Fat32::read` returns

The bytes of a file are those of its clusters, one after the other, wherever the clusters are
(`fileByte`). `Fat32::read` puts them in the buffer if all clusters it needs are adjacent. If they are
not, it does so only in a corner : the second and later runs start again with the full length, so the
read has to end exactly where a run is broken off, and the sectors that are skipped in the first
cluster are added at its end, so there may be none.

`runLoop_adjacent` and `runLoop_broken` say what the inner loop finds, `readRun_spec` what one
transfer does.
-/

namespace MiniVisor

open Machine

namespace Fat32

variable (v : Fat32)

/-! ## Volumes and files -/

/-- The address of the first byte of a cluster on the block device. -/
def clusterAddress (cluster : ℕ) : ℕ :=
  v.baseLba * v.lbaSize + (v.reservedSectors + v.numberOfFats * v.fatSectors +
    (cluster - 2) * v.sectorsPerCluster) * v.bytesPerSector

/-- The geometry of a volume, with sectors of whole blocks. -/
structure Geometry : Prop where
  lba : v.lbaSize = 512
  sector : 512 ∣ v.bytesPerSector
  sectorPos : 0 < v.bytesPerSector
  sectorLt : v.bytesPerSector < 2 ^ 16
  clusterPos : 0 < v.sectorsPerCluster
  clusterLt : v.sectorsPerCluster < 2 ^ 8
  base : v.baseLba < 2 ^ 32

/-- The file has the clusters `c 0`, `c 1` and so on up to `count`, as `get_next_cluster` gives
them, enough for its size and all on the volume. -/
structure HasClusters (file : FileInfo) (c : ℕ → ℕ) (count : ℕ) : Prop where
  entry : c 0 = file.entryCluster
  next : ∀ i, i + 1 < count → v.getNextCluster (c i) = some (c (i + 1))
  distinct : ∀ i < count, ∀ j < count, c i = c j → i = j
  long : file.fileSize ≤ count * v.bytesPerCluster
  size : file.fileSize < 2 ^ 32
  onVolume : ∀ i < count, 2 ≤ c i ∧ c i < 0x0FFFFFF8 ∧ v.reservedSectors + v.numberOfFats * v.fatSectors +
    (c i - 2) * v.sectorsPerCluster + v.sectorsPerCluster ≤ 2 ^ 32

/-- The byte of the file at `i`. -/
def fileByte (disk : ℕ → BitVec 8) (c : ℕ → ℕ) (i : ℕ) : BitVec 8 :=
  disk (v.clusterAddress (c (i / v.bytesPerCluster)) + i % v.bytesPerCluster)

/-- The number of bytes that a read can return. -/
def readLength (file : FileInfo) (offset length : ℕ) : ℕ :=
  min length (file.fileSize - offset)

/-- The clusters from `k` to `k'` are adjacent. -/
def Adjacent (c : ℕ → ℕ) (k k' : ℕ) : Prop :=
  ∀ i, k ≤ i → i < k' → c (i + 1) = c i + 1

/-- Where the clusters may be for a read of `n` bytes at `offset` : there is nothing to read, or they
are adjacent, or the read ends with a run that is broken off and no sector is skipped. -/
def Readable (c : ℕ → ℕ) (offset n : ℕ) : Prop :=
  n = 0 ∨ Adjacent c (offset / v.bytesPerCluster) ((offset + n - 1) / v.bytesPerCluster) ∨
    (offset % v.bytesPerCluster ≤ v.bytesPerSector ∧ v.bytesPerCluster ∣ offset + n ∧
      ∃ x, v.getNextCluster (c ((offset + n - 1) / v.bytesPerCluster)) = some x ∧
        x ≠ c ((offset + n - 1) / v.bytesPerCluster) + 1)

/-! ## The inner loop -/

section Run

variable {v} {length d : ℕ} {c : ℕ → ℕ} {i : ℕ}

/-- The state of the inner loop after `t` clusters, with `so` sectors skipped and `d` bytes in the
first sector. -/
def runAfter (v : Fat32) (c : ℕ → ℕ) (i so d t : ℕ) : Run where
  sectors := t * v.sectorsPerCluster
  bytes := t * v.bytesPerCluster - d
  sectorOffset := so
  dataOffset := if t = 0 then d else 0
  dataOffsetBackup := d
  cluster := c (i + t)

theorem skipSectors_runAfter (hd : d ≤ v.bytesPerSector) {so t : ℕ} :
    v.skipSectors (v.runAfter c i so d t) = .ok (v.runAfter c i so d t) := by
  rw [skipSectors, if_neg]
  · rfl
  · simp only [runAfter]
    split_ifs <;> omega

/-- The sectors counted so far fit. -/
theorem Geometry.sectors_lt (hg : v.Geometry) {t : ℕ}
    (ht : t * v.bytesPerCluster ≤ 2 ^ 32 + 2 ^ 16) : t * v.sectorsPerCluster < 2 ^ 31 := by
  have h512 : 512 ≤ v.bytesPerSector := Nat.le_of_dvd hg.sectorPos hg.sector
  have : t * v.sectorsPerCluster * 512 ≤ t * v.bytesPerCluster := by
    rw [bytesPerCluster, ← Nat.mul_assoc]
    exact Nat.mul_le_mul_left _ h512
  omega

/-- What is left after `t` clusters. -/
theorem left_runAfter (c : ℕ → ℕ) (i length so t : ℕ) (hg : v.Geometry) (hd : d ≤ v.bytesPerSector)
    (hlo : t * v.bytesPerCluster ≤ length + d) :
    (v.runAfter c i so d t).bytes ≤ length ∧
      length - (v.runAfter c i so d t).bytes + (v.runAfter c i so d t).dataOffset =
        length + d - t * v.bytesPerCluster := by
  simp only [runAfter]
  split_ifs with h
  · subst h
    omega
  · have hle : v.bytesPerSector ≤ t * v.bytesPerCluster := by
      rw [bytesPerCluster, ← Nat.mul_assoc]
      exact Nat.le_mul_of_pos_left _ (Nat.mul_pos (Nat.pos_of_ne_zero h) hg.clusterPos)
    omega

/-- The rest of the read is in this cluster, as the loop counts. -/
theorem runStep_last (hg : v.Geometry) (hd : d ≤ v.bytesPerSector) {so t : ℕ}
    (hlen : length < 2 ^ 32) (hlo : t * v.bytesPerCluster < length + d)
    (hhi : length + d ≤ (t + 1) * v.bytesPerCluster) :
    v.runStep length (v.runAfter c i so d t) = .ok (.done (.ok { v.runAfter c i so d t with
      sectors := 1 + (length + d - 1) / v.bytesPerSector, bytes := length })) := by
  have hb := hg.sectorLt
  have hsec := hg.sectors_lt (t := t) (by omega)
  have hdiv : (length + d - 1) / v.bytesPerSector = t * v.sectorsPerCluster +
      (length + d - t * v.bytesPerCluster - 1) / v.bytesPerSector := by
    have hsum : length + d - 1 = length + d - t * v.bytesPerCluster - 1 +
        t * v.sectorsPerCluster * v.bytesPerSector := by
      rw [Nat.mul_assoc, ← bytesPerCluster]
      omega
    rw [hsum, Nat.add_mul_div_right _ _ hg.sectorPos, Nat.add_comm]
  have hmore : (length + d - 1) / v.bytesPerSector ≤ length + d - 1 := Nat.div_le_self _ _
  have hd2 : (length + d - 1) / v.bytesPerSector * 2 ≤ length + d - 1 := by
    refine le_trans (Nat.mul_le_mul_left _ ?_) (Nat.div_mul_le_self (length + d - 1) v.bytesPerSector)
    have := Nat.le_of_dvd hg.sectorPos hg.sector
    omega
  obtain ⟨hle, hleft⟩ := left_runAfter c i length so t hg hd hlo.le
  rw [runStep, skipSectors_runAfter hd, Exec.ok_bind, checkedSub_of_le hle, Exec.ok_bind,
    checkedAdd_of_lt (by rw [hleft]; omega), Exec.ok_bind, hleft, if_pos
      (by rw [Nat.add_mul] at hhi; omega)]
  rw [max_eq_left (by omega)]
  simp only [checkedDiv, if_neg hg.sectorPos.ne', Exec.ok_bind]
  rw [checkedAdd_of_lt (by omega), Exec.ok_bind, Nat.mod_eq_of_lt (by omega),
    checkedAdd_of_lt (by simp only [runAfter]; omega), Exec.ok_bind, checkedAdd_of_lt (by omega),
    Exec.ok_bind]
  have hsectors : (v.runAfter c i so d t).sectors + (1 + (length + d - t * v.bytesPerCluster - 1) /
      v.bytesPerSector) = 1 + (length + d - 1) / v.bytesPerSector := by
    simp only [runAfter]
    omega
  rw [hsectors, Nat.add_sub_of_le hle]
  rfl

/-- A whole cluster, and what comes after it. -/
theorem runStep_cluster (so : ℕ) (hg : v.Geometry) (hd : d ≤ v.bytesPerSector) {t : ℕ}
    (hlen : length < 2 ^ 32) (hlo : (t + 1) * v.bytesPerCluster < length + d)
    (hc : c (i + t) < 0x0FFFFFF8) :
    v.runStep length (v.runAfter c i so d t) = match v.getNextCluster (c (i + t)) with
      | none => .ok (.done (.error ()))
      | some x => if x ≠ c (i + t) + 1 then .ok (.done (.ok { v.runAfter c i so d t with
          sectors := (t + 1) * v.sectorsPerCluster, bytes := (t + 1) * v.bytesPerCluster - d }))
        else .ok (.next { v.runAfter c i so d t with
          sectors := (t + 1) * v.sectorsPerCluster, bytes := (t + 1) * v.bytesPerCluster - d
          dataOffset := 0, cluster := x }) := by
  have hb := hg.sectorLt
  have hsec := hg.sectors_lt (t := t + 1) (by omega)
  have hle' : v.bytesPerSector ≤ v.bytesPerCluster := Nat.le_mul_of_pos_left _ hg.clusterPos
  have hexp : (t + 1) * v.bytesPerCluster = t * v.bytesPerCluster + v.bytesPerCluster := by ring
  have hexp' : (t + 1) * v.sectorsPerCluster = t * v.sectorsPerCluster + v.sectorsPerCluster := by
    ring
  obtain ⟨hle, hleft⟩ := left_runAfter c i length so t hg hd (by omega)
  have hwhole : (v.runAfter c i so d t).dataOffset ≤ v.bytesPerCluster ∧
      (v.runAfter c i so d t).bytes + (v.bytesPerCluster - (v.runAfter c i so d t).dataOffset) =
        (t + 1) * v.bytesPerCluster - d := by
    simp only [runAfter]
    split_ifs with h
    · subst h
      omega
    · have := Nat.le_mul_of_pos_left v.bytesPerCluster (Nat.pos_of_ne_zero h)
      omega
  rw [runStep, skipSectors_runAfter hd, Exec.ok_bind, checkedSub_of_le hle, Exec.ok_bind,
    checkedAdd_of_lt (by rw [hleft]; omega), Exec.ok_bind, hleft, if_neg (by omega),
    checkedAdd_of_lt (by simp only [runAfter]; omega), Exec.ok_bind, checkedSub_of_le hwhole.1,
    Exec.ok_bind, checkedAdd_of_lt (by rw [hwhole.2]; omega), Exec.ok_bind, hwhole.2]
  have hcluster : (v.runAfter c i so d t).cluster = c (i + t) := rfl
  have hsectors : (v.runAfter c i so d t).sectors = t * v.sectorsPerCluster := rfl
  simp only [hcluster, hsectors, ← hexp']
  cases v.getNextCluster (c (i + t)) with
  | none => rfl
  | some x =>
    dsimp only
    rw [checkedAdd_of_lt (by omega), Exec.ok_bind]
    rfl

theorem runStep_whole (hg : v.Geometry) (hd : d ≤ v.bytesPerSector) {so t x : ℕ}
    (hlen : length < 2 ^ 32) (hlo : (t + 1) * v.bytesPerCluster < length + d)
    (hc : c (i + t) < 0x0FFFFFF8) (hnext : v.getNextCluster (c (i + t)) = some x) :
    v.runStep length (v.runAfter c i so d t) =
      if x ≠ c (i + t) + 1 then .ok (.done (.ok { v.runAfter c i so d t with
        sectors := (t + 1) * v.sectorsPerCluster, bytes := (t + 1) * v.bytesPerCluster - d }))
      else .ok (.next { v.runAfter c i so d t with
        sectors := (t + 1) * v.sectorsPerCluster, bytes := (t + 1) * v.bytesPerCluster - d
        dataOffset := 0, cluster := x }) := by
  rw [runStep_cluster so hg hd hlen hlo hc, hnext]

/-- A whole cluster, and the next one is adjacent. -/
theorem runStep_next (hg : v.Geometry) (hd : d ≤ v.bytesPerSector) {so t : ℕ}
    (hlen : length < 2 ^ 32) (hlo : (t + 1) * v.bytesPerCluster < length + d)
    (hc : c (i + t) < 0x0FFFFFF8) (hnext : v.getNextCluster (c (i + t)) = some (c (i + t) + 1) ∧
      c (i + (t + 1)) = c (i + t) + 1) :
    v.runStep length (v.runAfter c i so d t) = .ok (.next (v.runAfter c i so d (t + 1))) := by
  rw [runStep_whole hg hd hlen hlo hc hnext.1, if_neg (not_not.mpr rfl), ← hnext.2]
  simp [runAfter]

/-- The number of clusters in a run is far below the bound of the loop. -/
theorem Geometry.lt_maxIterations (hg : v.Geometry) {T : ℕ}
    (hT : T * v.bytesPerCluster < 2 ^ 33) : T < maxIterations := by
  have := Nat.le_mul_of_pos_right T (Nat.mul_pos hg.clusterPos hg.sectorPos)
  rw [← bytesPerCluster] at this
  rw [maxIterations]
  omega

/-- The first step takes whole sectors off the offset. -/
theorem runStep_start (length : ℕ) (c : ℕ → ℕ) (i : ℕ) (hg : v.Geometry) {dataOffset : ℕ}
    (hd : dataOffset < v.bytesPerCluster) :
    ∃ so d, d ≤ v.bytesPerSector ∧ dataOffset = so * v.bytesPerSector + d ∧
      (so = 0 ∨ d < v.bytesPerSector) ∧ (dataOffset ≤ v.bytesPerSector → so = 0) ∧
      so < v.sectorsPerCluster ∧
      v.runStep length (.start (c i) dataOffset) = v.runStep length (v.runAfter c i so d 0) := by
  have hpos := hg.sectorPos
  by_cases hlt : v.bytesPerSector < dataOffset
  · have hso : dataOffset / v.bytesPerSector < v.sectorsPerCluster :=
      (Nat.div_lt_iff_lt_mul hpos).mpr hd
    have hspc := hg.clusterLt
    have hdiv := Nat.div_add_mod' dataOffset v.bytesPerSector
    have hmod := Nat.mod_lt dataOffset hpos
    refine ⟨dataOffset / v.bytesPerSector, dataOffset % v.bytesPerSector, hmod.le, hdiv.symm,
      .inr hmod, by omega, hso, ?_⟩
    have hskip : v.skipSectors (.start (c i) dataOffset) = .ok (v.runAfter c i
        (dataOffset / v.bytesPerSector) (dataOffset % v.bytesPerSector) 0) := by
      have hbound : v.bytesPerCluster < 2 ^ 8 * 2 ^ 16 :=
        Nat.mul_lt_mul'' hg.clusterLt hg.sectorLt
      simp only [skipSectors, Run.start, if_pos hlt, checkedDiv, if_neg hpos.ne', Exec.ok_bind]
      rw [Nat.mod_eq_of_lt (by omega), checkedMul_of_lt (by omega), Exec.ok_bind,
        checkedSub_of_le (by omega), Exec.ok_bind]
      have hsub : dataOffset - dataOffset / v.bytesPerSector * v.bytesPerSector =
          dataOffset % v.bytesPerSector := by omega
      simp only [runAfter, Exec.pure_eq_ok, hsub, Nat.zero_mul, Nat.zero_sub, if_true, Nat.add_zero]
    rw [runStep, runStep, hskip, skipSectors_runAfter hmod.le]
  · refine ⟨0, dataOffset, by omega, by omega, .inl rfl, fun _ => rfl, hg.clusterPos, ?_⟩
    rw [runStep, runStep, skipSectors_runAfter (by omega), skipSectors, if_neg
      (by simpa [Run.start] using hlt)]
    simp [runAfter, Run.start]

/-- The inner loop on clusters that are adjacent for as long as it needs them. -/
theorem runLoop_adjacent (so : ℕ) (hg : v.Geometry) (hd : d ≤ v.bytesPerSector) {T : ℕ}
    (hlen : length < 2 ^ 32) (hlo : T * v.bytesPerCluster < length + d)
    (hhi : length + d ≤ (T + 1) * v.bytesPerCluster) (hc : ∀ t < T, c (i + t) < 0x0FFFFFF8)
    (hnext : ∀ t < T, v.getNextCluster (c (i + t)) = some (c (i + t) + 1) ∧
      c (i + (t + 1)) = c (i + t) + 1) :
    loop (v.runStep length) maxIterations (v.runAfter c i so d 0) =
      .ok (.ok { v.runAfter c i so d T with
        sectors := 1 + (length + d - 1) / v.bytesPerSector, bytes := length }) := by
  have hb := hg.sectorLt
  have hT : T < maxIterations := hg.lt_maxIterations (by omega)
  refine loop_of_steps (fun t => v.runAfter c i so d t) T 0 _ (fun t _ ht => ?_) ?_ hT
  · have hmono : (t + 1) * v.bytesPerCluster ≤ T * v.bytesPerCluster :=
      Nat.mul_le_mul_right _ (by omega)
    exact runStep_next hg hd hlen (by omega) (hc t (by omega)) (hnext t (by omega))
  · rw [Nat.zero_add]
    exact runStep_last hg hd hlen hlo hhi

/-- The inner loop on clusters that are adjacent up to one whose successor is elsewhere. -/
theorem runLoop_broken (so : ℕ) (hg : v.Geometry) (hd : d ≤ v.bytesPerSector) {T x : ℕ}
    (hlen : length < 2 ^ 32) (hlo : (T + 1) * v.bytesPerCluster < length + d)
    (hc : ∀ t ≤ T, c (i + t) < 0x0FFFFFF8)
    (hnext : ∀ t < T, v.getNextCluster (c (i + t)) = some (c (i + t) + 1) ∧
      c (i + (t + 1)) = c (i + t) + 1)
    (hx : v.getNextCluster (c (i + T)) = some x) (hne : x ≠ c (i + T) + 1) :
    loop (v.runStep length) maxIterations (v.runAfter c i so d 0) =
      .ok (.ok { v.runAfter c i so d T with
        sectors := (T + 1) * v.sectorsPerCluster, bytes := (T + 1) * v.bytesPerCluster - d }) := by
  have hb := hg.sectorLt
  have hT : T + 1 < maxIterations := hg.lt_maxIterations (by omega)
  refine loop_of_steps (fun t => v.runAfter c i so d t) T 0 _ (fun t _ ht => ?_) ?_ (by omega)
  · have hmono : (t + 1) * v.bytesPerCluster ≤ (T + 1) * v.bytesPerCluster :=
      Nat.mul_le_mul_right _ (by omega)
    exact runStep_next hg hd hlen (by omega) (hc t (by omega)) (hnext t (by omega))
  · rw [Nat.zero_add, runStep_whole hg hd hlen hlo (hc T le_rfl) hx, if_pos hne]

end Run

/-! ## One transfer -/

section Transfer

variable {v} {σ : Type} {pages : Pages σ} {bufferAddress : ℕ}

/-- A page allocation for a bounce buffer succeeds. No bounce buffer of a file below 4 GiB has more
pages. -/
def BounceBuffers (pages : Pages σ) : Prop :=
  ∀ n < 2 ^ 22, ∀ s, ∃ b s', pages.allocatePages n 0 s = (some b, s') ∧ b + n * 4096 ≤ 2 ^ 64

/-- The first sector of a cluster that is on the volume. -/
theorem clusterToSector_eq {cluster : ℕ} (h2 : 2 ≤ cluster)
    (hle : v.reservedSectors + v.numberOfFats * v.fatSectors +
      (cluster - 2) * v.sectorsPerCluster < 2 ^ 32) :
    v.clusterToSector cluster = .ok (v.reservedSectors + v.numberOfFats * v.fatSectors +
      (cluster - 2) * v.sectorsPerCluster) := by
  rw [clusterToSector, checkedMul_of_lt (by omega), Exec.ok_bind, checkedAdd_of_lt (by omega),
    Exec.ok_bind, checkedSub_of_le h2, Exec.ok_bind, checkedMul_of_lt (by omega), Exec.ok_bind,
    checkedAdd_of_lt hle]

/-- The range on the block device of some sectors of a cluster. -/
theorem sectorAddress_eq (hg : v.Geometry) {cluster so sectors : ℕ}
    (hlt : v.reservedSectors + v.numberOfFats * v.fatSectors +
      (cluster - 2) * v.sectorsPerCluster + so < 2 ^ 32) (hs : sectors < 2 ^ 32) :
    v.sectorAddress (v.reservedSectors + v.numberOfFats * v.fatSectors +
        (cluster - 2) * v.sectorsPerCluster + so) =
      .ok (v.clusterAddress cluster + so * v.bytesPerSector) ∧
    checkedMul 64 sectors v.bytesPerSector = .ok (sectors * v.bytesPerSector) ∧
    ¬ ((v.clusterAddress cluster + so * v.bytesPerSector) &&& (2 ^ 9 - 1) ≠ 0 ∨
      (sectors * v.bytesPerSector) &&& (2 ^ 9 - 1) ≠ 0) := by
  have hb := hg.sectorLt
  have hbase := hg.base
  set first := v.reservedSectors + v.numberOfFats * v.fatSectors +
    (cluster - 2) * v.sectorsPerCluster with hfirst
  have haddr : v.clusterAddress cluster + so * v.bytesPerSector =
      v.baseLba * 512 + (first + so) * v.bytesPerSector := by
    rw [clusterAddress, hg.lba, ← hfirst]
    ring
  have hprod : (first + so) * v.bytesPerSector < 2 ^ 32 * 2 ^ 16 := Nat.mul_lt_mul'' hlt hb
  have hlen : sectors * v.bytesPerSector < 2 ^ 32 * 2 ^ 16 := Nat.mul_lt_mul'' hs hb
  have hdvd : 512 ∣ (first + so) * v.bytesPerSector := hg.sector.mul_left _
  have hdvd' : 512 ∣ sectors * v.bytesPerSector := hg.sector.mul_left _
  refine ⟨?_, checkedMul_of_lt (by omega), ?_⟩
  · rw [sectorAddress, hg.lba, checkedMul_of_lt (by omega), Exec.ok_bind,
      checkedMul_of_lt (by omega), Exec.ok_bind, checkedAdd_of_lt (by omega), haddr]
  · rw [Nat.and_two_pow_sub_one_eq_mod, Nat.and_two_pow_sub_one_eq_mod, haddr]
    omega

/-- Sectors of a cluster are read. -/
theorem readSectors_eq (hg : v.Geometry) {cluster so sectors buffer : ℕ} {isPrivate : Bool}
    {h : BlockHost σ} (hlt : v.reservedSectors + v.numberOfFats * v.fatSectors +
      (cluster - 2) * v.sectorsPerCluster + so < 2 ^ 32) (hs : sectors < 2 ^ 32) :
    v.readSectors buffer (v.reservedSectors + v.numberOfFats * v.fatSectors +
        (cluster - 2) * v.sectorsPerCluster + so) sectors isPrivate h =
      .ok (.ok (), h.receive buffer (v.clusterAddress cluster + so * v.bytesPerSector)
        (sectors * v.bytesPerSector) isPrivate) := by
  obtain ⟨haddr, hlen, haligned⟩ := sectorAddress_eq hg hlt hs
  rw [readSectors, haddr, Exec.ok_bind, hlen, Exec.ok_bind, BlockHost.blkRead, if_neg haligned]
  rfl

/-- What the transfer of a run does. -/
theorem readRun_spec (length : ℕ) (c : Cursor σ) (run : Run) (hg : v.Geometry)
    (hbounce : BounceBuffers pages) (h2 : 2 ≤ c.cluster)
    (hvol : v.reservedSectors + v.numberOfFats * v.fatSectors +
      (c.cluster - 2) * v.sectorsPerCluster + v.sectorsPerCluster ≤ 2 ^ 32)
    (hso : run.sectorOffset < v.sectorsPerCluster)
    (hsize : run.sectors * v.bytesPerSector < 2 ^ 33)
    (hbytes : run.bytes + run.dataOffsetBackup ≤ run.sectors * v.bytesPerSector)
    (hlen : c.bufferPointer + run.bytes ≤ length) (hpos : 0 < run.bytes)
    (hbuf : bufferAddress + length ≤ 2 ^ 64)
    (hfirst : run.dataOffsetBackup ≠ 0 → c.bufferPointer = 0) :
    ∃ host, v.readRun pages bufferAddress c run = .ok (.ok (), host) ∧
      host.disk = c.host.disk ∧
      (∀ j < run.bytes, host.memory.bytes (bufferAddress + c.bufferPointer + j) =
        c.host.disk (v.clusterAddress c.cluster + run.sectorOffset * v.bytesPerSector +
          run.dataOffsetBackup + j)) ∧
      ∀ j < c.bufferPointer,
        host.memory.bytes (bufferAddress + j) = c.host.memory.bytes (bufferAddress + j) := by
  have h512 : 512 ≤ v.bytesPerSector := Nat.le_of_dvd hg.sectorPos hg.sector
  have hsectors : run.sectors < 2 ^ 32 := by
    have := Nat.mul_le_mul_left run.sectors h512
    omega
  have hdvd : 512 ∣ run.sectors * v.bytesPerSector := hg.sector.mul_left _
  set size := run.sectors * v.bytesPerSector with hsizedef
  have hmask : size &&& bitNot 64 (512 - 1) = size := by
    rw [show 512 - 1 = 2 ^ 9 - 1 from rfl, land_bitNot_two_pow (by decide) (by omega)]
    exact Nat.div_mul_cancel hdvd
  have hsector : v.clusterToSector c.cluster = .ok (v.reservedSectors +
      v.numberOfFats * v.fatSectors + (c.cluster - 2) * v.sectorsPerCluster) :=
    clusterToSector_eq h2 (by omega)
  rw [readRun, checkedMul_of_lt (by omega), Exec.ok_bind, hg.lba, checkedSub_of_le (by decide),
    Exec.ok_bind, hmask, checkedAdd_of_lt (by omega), Exec.ok_bind]
  simp only [hsector, Exec.ok_bind]
  by_cases hd : run.dataOffsetBackup ≠ 0
  · have hpages : (((size + 512) >>> pageShift) + 1) < 2 ^ 22 ∧
        size + 512 ≤ (((size + 512) >>> pageShift) + 1) * 4096 := by
      rw [Nat.shiftRight_eq_div_pow, show 2 ^ pageShift = 4096 from rfl]
      omega
    obtain ⟨b, p, halloc, hend⟩ := hbounce _ hpages.1 c.host.pages
    have h0 := hfirst hd
    rw [if_pos hd, halloc]
    simp only
    rw [checkedAdd_of_lt (by omega), Exec.ok_bind, readSectors_eq hg (by omega) hsectors,
      Exec.ok_bind]
    simp only [assert_of h0, Exec.ok_bind]
    rw [checkedAdd_of_lt (by omega), Exec.ok_bind]
    refine ⟨_, rfl, rfl, fun j hj => ?_, fun j hj => by omega⟩
    rw [h0, Nat.add_zero]
    simp only [BlockHost.copyOut, BlockHost.receive, Memory.fill, Memory.touch]
    rw [if_pos ⟨by omega, by omega⟩, if_pos ⟨by omega, by omega⟩]
    congr 1
    omega
  · rw [not_not] at hd
    rw [if_neg (by simp [hd]), checkedAdd_of_lt (by omega), Exec.ok_bind,
      checkedAdd_of_lt (by omega), Exec.ok_bind, readSectors_eq hg (by omega) hsectors]
    refine ⟨_, rfl, rfl, fun j hj => ?_, fun j hj => ?_⟩
    · simp only [BlockHost.receive, Memory.fill]
      rw [if_pos ⟨by omega, by omega⟩, hd]
      congr 1
      omega
    · simp only [BlockHost.receive, Memory.fill]
      rw [if_neg (by omega)]

end Transfer

/-! ## The whole read -/

section Read

variable {v} {σ : Type} {pages : Pages σ} {file : FileInfo} {c : ℕ → ℕ}
  {bufferAddress count offset n : ℕ}

theorem Geometry.bytesPerCluster_pos (hg : v.Geometry) : 0 < v.bytesPerCluster :=
  Nat.mul_pos hg.clusterPos hg.sectorPos

theorem clusterAddress_add {cluster : ℕ} (h2 : 2 ≤ cluster) (m : ℕ) :
    v.clusterAddress (cluster + m) = v.clusterAddress cluster + m * v.bytesPerCluster := by
  rw [clusterAddress, clusterAddress, bytesPerCluster,
    show cluster + m - 2 = cluster - 2 + m by omega]
  ring

/-- The `m`-th of adjacent clusters. -/
theorem Adjacent.eq_add {i k : ℕ} (hadj : Adjacent c i k) : ∀ m, i + m ≤ k → c (i + m) = c i + m
  | 0, _ => rfl
  | m + 1, hm => by
    rw [← Nat.add_assoc, hadj (i + m) (by omega) (by omega), hadj.eq_add m (by omega), Nat.add_assoc]

/-- Adjacent clusters are one range of the block device. -/
theorem fileByte_adjacent (hg : v.Geometry) {i k x : ℕ} (disk : ℕ → BitVec 8)
    (hadj : Adjacent c i k) (h2 : 2 ≤ c i) (hx : i + x / v.bytesPerCluster ≤ k) :
    v.fileByte disk c (i * v.bytesPerCluster + x) = disk (v.clusterAddress (c i) + x) := by
  have hpos := hg.bytesPerCluster_pos
  have hdiv : (i * v.bytesPerCluster + x) / v.bytesPerCluster = i + x / v.bytesPerCluster := by
    rw [Nat.mul_comm, Nat.mul_add_div hpos]
  have hmod : (i * v.bytesPerCluster + x) % v.bytesPerCluster = x % v.bytesPerCluster := by
    rw [Nat.mul_comm, Nat.mul_add_mod]
  rw [fileByte, hdiv, hmod, hadj.eq_add _ hx, clusterAddress_add h2, Nat.add_assoc, Nat.div_add_mod']

theorem skipClusters_eq (hf : v.HasClusters file c count) : ∀ k i, i + k < count →
    v.skipClusters k (c i) = some (c (i + k))
  | 0, i, _ => rfl
  | k + 1, i, h => by
    rw [skipClusters, hf.next i (by omega), Option.bind_some, skipClusters_eq hf k (i + 1) (by omega)]
    congr 2
    omega

/-- What a read of `n` bytes has to do. -/
def ReadsBytes (v : Fat32) (c : ℕ → ℕ) (disk : ℕ → BitVec 8) (bufferAddress offset n : ℕ)
    (r : Except Unit ℕ × BlockHost σ) : Prop :=
  r.1 = .ok n ∧
    ∀ j < n, r.2.memory.bytes (bufferAddress + j) = v.fileByte disk c (offset + j)

/-- The number of parts of size `b` that `x` is broken into, less one. -/
theorem exists_parts {b x : ℕ} (hb : 0 < b) (hx : 0 < x) :
    ∃ t, (x - 1) / b = t ∧ t * b < x ∧ x ≤ (t + 1) * b := by
  refine ⟨_, rfl, ?_, ?_⟩
  · have := Nat.div_mul_le_self (x - 1) b
    omega
  · have := Nat.lt_div_mul_add hb (a := x - 1)
    rw [Nat.add_mul]
    omega

section

variable {k l d₀ : ℕ} (hg : v.Geometry) (hf : v.HasClusters file c count)
  (hbounce : BounceBuffers pages) (hbuf : bufferAddress + n ≤ 2 ^ 64) (hn : 0 < n)
  (hsize : n < 2 ^ 32) (hoffset : offset = k * v.bytesPerCluster + d₀)
  (hd₀ : d₀ < v.bytesPerCluster) (hl : (d₀ + n - 1) / v.bytesPerCluster = l) (hcount : k + l < count)

include hg hf hbounce hbuf hn hsize hoffset hd₀ hl hcount

/-- The clusters are adjacent : one run is enough. -/
theorem readLoop_adjacent (hadj : Adjacent c k (k + l)) (host : BlockHost σ) :
    ∃ r, loop (v.readStep pages bufferAddress n) maxIterations ⟨d₀, c k, 0, host⟩ = .ok r ∧
      v.ReadsBytes c host.disk bufferAddress offset n r := by
  have hpos := hg.bytesPerCluster_pos
  have hb := hg.sectorLt
  have h512 : 512 ≤ v.bytesPerSector := Nat.le_of_dvd hg.sectorPos hg.sector
  obtain ⟨so, d, hd, rfl, -, -, hso, hstart⟩ := runStep_start n c k hg hd₀
  -- The number of clusters the loop counts, which leaves out the sectors it has skipped.
  obtain ⟨T, hT, hTlo, hThi⟩ := exists_parts hpos (show 0 < n + d by omega)
  have hTl : T ≤ l := by
    rw [← hT, ← hl]
    exact Nat.div_le_div_right (by omega)
  have hnext : ∀ t < T, v.getNextCluster (c (k + t)) = some (c (k + t) + 1) ∧
      c (k + (t + 1)) = c (k + t) + 1 := by
    intro t ht
    have hc := hadj (k + t) (by omega) (by omega)
    exact ⟨by rw [hf.next (k + t) (by omega), hc], hc⟩
  have hloop := runLoop_adjacent so hg hd hsize hTlo hThi
    (fun t ht => (hf.onVolume (k + t) (by omega)).2.1) hnext
  rw [← loop_congr hstart] at hloop
  obtain ⟨S, hS, hSlo, hShi⟩ := exists_parts hg.sectorPos (show 0 < n + d by omega)
  rw [hS] at hloop
  have hS512 : S * 512 ≤ S * v.bytesPerSector := Nat.mul_le_mul_left _ h512
  obtain ⟨h2, -, hvol⟩ := hf.onVolume k (by omega)
  obtain ⟨host', hread, hdisk, hbytes, -⟩ := readRun_spec n
    ⟨so * v.bytesPerSector + d, c k, 0, host⟩
    { v.runAfter c k so d T with sectors := 1 + S, bytes := n } hg hbounce h2 hvol hso
    (by simp only [Nat.add_mul]; omega)
    (by simp only [runAfter]; rwa [Nat.add_comm 1 S])
    (by simp) hn hbuf (fun _ => rfl)
  refine ⟨(.ok n, host'), ?_, rfl, fun j hj => ?_⟩
  · refine loop_of_steps (fun _ => _) 0 0 _ (fun t _ ht => absurd ht (by omega)) ?_ (by decide)
    have hsum : checkedAdd 64 0 n = .ok n := by
      rw [checkedAdd_of_lt (by omega), Nat.zero_add]
    simp only [readStep, hloop, hread, nextRun, Exec.ok_bind, hsum, if_true, Exec.pure_eq_ok]
  · have hfile := fileByte_adjacent hg host.disk hadj h2 (x := so * v.bytesPerSector + d + j) (by
      rw [← hl]
      exact Nat.add_le_add_left (Nat.div_le_div_right (by omega)) k)
    have hb := hbytes j hj
    simp only [runAfter, Nat.add_zero] at hb
    rw [hb, hoffset, Nat.add_assoc (k * v.bytesPerCluster), hfile]
    congr 1
    omega

end

/-- Between two runs, before the `i`-th cluster : the bytes so far are in the buffer. -/
structure AtRun (v : Fat32) (c : ℕ → ℕ) (disk : ℕ → BitVec 8) (bufferAddress offset i : ℕ)
    (cur : Cursor σ) : Prop where
  position : offset + cur.bufferPointer = i * v.bytesPerCluster + cur.dataOffset
  small : cur.dataOffset ≤ v.bytesPerSector ∧ cur.dataOffset < v.bytesPerCluster
  first : cur.bufferPointer = 0 ∨ cur.dataOffset = 0
  sameDisk : cur.host.disk = disk
  bytes : ∀ j < cur.bufferPointer,
    cur.host.memory.bytes (bufferAddress + j) = v.fileByte disk c (offset + j)

/-- One run that is broken off after `T` more clusters. -/
theorem readStep_broken (hg : v.Geometry) (hf : v.HasClusters file c count)
    (hbounce : BounceBuffers pages) (hbuf : bufferAddress + n ≤ 2 ^ 64)
    (hsize : n < 2 ^ 32) {disk : ℕ → BitVec 8} {i T x : ℕ} {cur : Cursor σ}
    (h : AtRun v c disk bufferAddress offset i cur) (hcluster : cur.cluster = c i)
    (hcount : i + T < count)
    (hnext : ∀ t < T, v.getNextCluster (c (i + t)) = some (c (i + t) + 1) ∧
      c (i + (t + 1)) = c (i + t) + 1)
    (hx : v.getNextCluster (c (i + T)) = some x) (hne : x ≠ c (i + T) + 1)
    (hlo : (T + 1) * v.bytesPerCluster < n + cur.dataOffset)
    (hend : (i + T + 1) * v.bytesPerCluster ≤ offset + n) :
    ∃ cur' : Cursor σ, AtRun v c disk bufferAddress offset (i + T + 1) cur' ∧ cur'.cluster = x ∧
      cur'.dataOffset = 0 ∧ cur.bufferPointer < cur'.bufferPointer ∧
      v.readStep pages bufferAddress n cur = .ok (if n = cur'.bufferPointer then
        .done (.ok cur'.bufferPointer, cur'.host) else .next cur') := by
  obtain ⟨d, cluster, bp, host⟩ := cur
  obtain ⟨hposition, ⟨hd, hdB⟩, hfirst, rfl, hbytes⟩ := h
  simp only at hcluster hlo hposition hd hdB hfirst hbytes ⊢
  subst hcluster
  have hpos := hg.bytesPerCluster_pos
  obtain ⟨so, d', -, hdd, -, hso0, hso, hstart⟩ := runStep_start n c i hg hdB
  obtain rfl := hso0 hd
  obtain rfl : d = d' := by omega
  have hloop := runLoop_broken 0 hg hd hsize hlo
    (fun t ht => (hf.onVolume (i + t) (by omega)).2.1) hnext hx hne
  rw [← loop_congr hstart] at hloop
  have hexp : (i + T + 1) * v.bytesPerCluster = i * v.bytesPerCluster + (T + 1) * v.bytesPerCluster := by
    ring
  have hexp' : (T + 1) * v.bytesPerCluster = T * v.bytesPerCluster + v.bytesPerCluster := by ring
  have hb := hg.sectorLt
  have hsec := hg.sectors_lt (t := T + 1) (by omega)
  have hwhole : (T + 1) * v.sectorsPerCluster * v.bytesPerSector = (T + 1) * v.bytesPerCluster := by
    rw [bytesPerCluster, Nat.mul_assoc]
  obtain ⟨h2, -, hvol⟩ := hf.onVolume i (by omega)
  obtain ⟨host', hread, hdisk, hnew, hold⟩ := readRun_spec n ⟨d, c i, bp, host⟩
    { v.runAfter c i 0 d T with
      sectors := (T + 1) * v.sectorsPerCluster, bytes := (T + 1) * v.bytesPerCluster - d }
    hg hbounce h2 hvol hso (by simp only; omega) (by simp only [runAfter]; omega)
    (by simp only; omega) (by simp only; omega) hbuf (by simp only [runAfter]; omega)
  simp only [runAfter] at hnew
  refine ⟨⟨0, x, bp + ((T + 1) * v.bytesPerCluster - d), host'⟩, ⟨?_, ?_, .inr rfl, hdisk, ?_⟩, rfl,
    rfl, ?_, ?_⟩
  · simp only
    omega
  · exact ⟨Nat.zero_le _, hpos⟩
  · simp only
    intro j hj
    by_cases hjb : j < bp
    · rw [hold j hjb, hbytes j hjb]
    · have hadj : Adjacent c i (i + T) := fun m hm hm' => by
        have := (hnext (m - i) (by omega)).2
        rwa [show i + (m - i + 1) = m + 1 by omega, show i + (m - i) = m by omega] at this
      have hfile := fileByte_adjacent hg host.disk hadj h2 (x := d + (j - bp)) (by
        have : (d + (j - bp)) / v.bytesPerCluster < T + 1 := by
          rw [Nat.div_lt_iff_lt_mul hpos]
          omega
        omega)
      have := hnew (j - bp) (by omega)
      rw [show bufferAddress + bp + (j - bp) = bufferAddress + j by omega] at this
      rw [this, show offset + j = i * v.bytesPerCluster + (d + (j - bp)) by omega, hfile]
      congr 1
      omega
  · simp only
    omega
  · have hsum : checkedAdd 64 bp ((T + 1) * v.bytesPerCluster - d) =
        .ok (bp + ((T + 1) * v.bytesPerCluster - d)) := checkedAdd_of_lt (by omega)
    simp only [readStep, hloop, hread, Exec.ok_bind]
    simp only [nextRun, runAfter, hsum, hx, Exec.ok_bind, Exec.pure_eq_ok]
    split_ifs <;> rfl

/-- The clusters are not adjacent, and the read ends where a run is broken off. -/
theorem readLoop_broken (hg : v.Geometry) (hf : v.HasClusters file c count)
    (hbounce : BounceBuffers pages) (hbuf : bufferAddress + n ≤ 2 ^ 64) (hn : 0 < n)
    (hsize : n < 2 ^ 32) {k l d₀ x : ℕ} (hoffset : offset = k * v.bytesPerCluster + d₀)
    (hd₀ : d₀ ≤ v.bytesPerSector ∧ d₀ < v.bytesPerCluster)
    (hend : offset + n = (k + l + 1) * v.bytesPerCluster) (hcount : k + l < count)
    (hx : v.getNextCluster (c (k + l)) = some x) (hne : x ≠ c (k + l) + 1)
    (hadj : ¬ Adjacent c k (k + l)) (host : BlockHost σ) :
    ∃ r, loop (v.readStep pages bufferAddress n) maxIterations ⟨d₀, c k, 0, host⟩ = .ok r ∧
      v.ReadsBytes c host.disk bufferAddress offset n r := by
  have hpos := hg.bytesPerCluster_pos
  refine loop_returns (I := fun cur => ∃ i, k ≤ i ∧ i ≤ k + l ∧ cur.cluster = c i ∧
      AtRun v c host.disk bufferAddress offset i cur) (fun cur => n - cur.bufferPointer) ?_ _ _
    ⟨k, le_rfl, by omega, rfl, ⟨by simpa using hoffset, hd₀, .inl rfl, rfl, by simp⟩⟩
    (by simp only [maxIterations]; omega)
  rintro cur ⟨i, hki, hil, hcluster, h⟩
  -- The first cluster from here on whose successor is elsewhere.
  have hbreak : ∃ t, ¬ v.getNextCluster (c (i + t)) = some (c (i + t) + 1) := by
    refine ⟨k + l - i, ?_⟩
    rw [show i + (k + l - i) = k + l by omega, hx]
    simpa using hne
  obtain ⟨T, hT, hmin⟩ : ∃ T, ¬ v.getNextCluster (c (i + T)) = some (c (i + T) + 1) ∧
      ∀ t < T, v.getNextCluster (c (i + t)) = some (c (i + t) + 1) :=
    ⟨Nat.find hbreak, Nat.find_spec hbreak, fun t ht => not_not.mp (Nat.find_min hbreak ht)⟩
  have hTl : i + T ≤ k + l := by
    by_contra hc
    have := hmin (k + l - i) (by omega)
    rw [show i + (k + l - i) = k + l by omega, hx] at this
    exact hne (Option.some.inj this)
  have hnext : ∀ t < T, v.getNextCluster (c (i + t)) = some (c (i + t) + 1) ∧
      c (i + (t + 1)) = c (i + t) + 1 := by
    intro t ht
    have h1 := hmin t ht
    refine ⟨h1, ?_⟩
    rw [hf.next (i + t) (by omega)] at h1
    exact Option.some.inj h1
  obtain ⟨y, hy, hlast⟩ : ∃ y, v.getNextCluster (c (i + T)) = some y ∧
      (i + T < k + l → y = c (i + T + 1)) := by
    by_cases hlt : i + T < k + l
    · exact ⟨_, hf.next (i + T) (by omega), fun _ => rfl⟩
    · exact ⟨x, by rw [show i + T = k + l by omega, hx], fun hc => absurd hc hlt⟩
  have hyne : y ≠ c (i + T) + 1 := fun hc => hT (by rw [hy, hc])
  have hposition := h.position
  have hsmall := h.small
  have hfirst := h.first
  have hexp : (k + l + 1) * v.bytesPerCluster =
      k * v.bytesPerCluster + l * v.bytesPerCluster + v.bytesPerCluster := by ring
  have hge : k * v.bytesPerCluster ≤ i * v.bytesPerCluster := Nat.mul_le_mul_right _ hki
  have hTlt : T + 1 ≤ l ∧ (i = k → cur.dataOffset = d₀) := by
    by_cases hik : i = k
    · subst hik
      refine ⟨?_, fun _ => by omega⟩
      by_contra hc
      refine hadj fun m hm hm' => ?_
      have := (hnext (m - i) (by omega)).2
      rwa [show i + (m - i + 1) = m + 1 by omega, show i + (m - i) = m by omega] at this
    · exact ⟨by omega, fun hc => absurd hc hik⟩
  have hmono : (T + 1) * v.bytesPerCluster ≤ l * v.bytesPerCluster :=
    Nat.mul_le_mul_right _ hTlt.1
  have hlo : (T + 1) * v.bytesPerCluster < n + cur.dataOffset := by
    by_cases hik : i = k
    · have := hTlt.2 hik
      omega
    · omega
  have hstop : (i + T + 1) * v.bytesPerCluster ≤ (k + l + 1) * v.bytesPerCluster :=
    Nat.mul_le_mul_right _ (by omega)
  obtain ⟨cur', h', hcluster', hzero, hlt, hstep⟩ := readStep_broken hg hf hbounce hbuf hsize h
    hcluster (by omega) hnext hy hyne hlo (by omega)
  have hposition' := h'.position
  by_cases hdone : n = cur'.bufferPointer
  · rw [if_pos hdone] at hstep
    exact .inl ⟨_, hstep, by rw [← hdone], fun j hj => h'.bytes j (by omega)⟩
  · rw [if_neg hdone] at hstep
    have hlt' : i + T < k + l := by
      by_contra hc
      rw [show i + T + 1 = k + l + 1 by omega, ← hend] at hposition'
      omega
    exact .inr ⟨cur', hstep, ⟨i + T + 1, by omega, by omega, by rw [hcluster', hlast hlt'], h'⟩,
      by omega⟩

/-- The loops start at the cluster of `offset`. -/
theorem transfer_eq (hg : v.Geometry) (hf : v.HasClusters file c count) (hoffset : offset < 2 ^ 64)
    (hk : offset / v.bytesPerCluster < count)
    (step : Cursor σ → Exec (Iter (Cursor σ) (Except Unit ℕ × BlockHost σ))) (host : BlockHost σ) :
    v.transfer step file offset host = loop step maxIterations
      ⟨offset % v.bytesPerCluster, c (offset / v.bytesPerCluster), 0, host⟩ := by
  have hdiv := Nat.div_add_mod' offset v.bytesPerCluster
  have hskip := skipClusters_eq hf (offset / v.bytesPerCluster) 0 (by omega)
  rw [Nat.zero_add, hf.entry] at hskip
  simp only [transfer, checkedDiv, if_neg hg.bytesPerCluster_pos.ne', Exec.ok_bind]
  rw [checkedMul_of_lt (by omega), Exec.ok_bind, checkedSub_of_le (by omega), Exec.ok_bind, hskip]
  simp only
  rw [show offset - offset / v.bytesPerCluster * v.bytesPerCluster = offset % v.bytesPerCluster by
    omega]

/-- The length stops at the end of the file. -/
theorem clampLength_eq {length : ℕ} (hlen : 1 ≤ length) (hsum : offset + length < 2 ^ 64) :
    clampLength file offset length = .ok (if readLength file offset length = 0 then none
      else some (readLength file offset length)) := by
  rw [clampLength, checkedAdd_of_lt hsum, Exec.ok_bind, readLength]
  split_ifs <;> first | rfl | omega | skip
  all_goals
    simp only [Exec.pure_eq_ok]
    congr 2
    omega

/-- The clusters that a read needs. -/
theorem exists_span (hg : v.Geometry) (hf : v.HasClusters file c count) (hn : 0 < n)
    (hsize : offset + n ≤ file.fileSize) :
    ∃ l, (offset % v.bytesPerCluster + n - 1) / v.bytesPerCluster = l ∧
      (offset + n - 1) / v.bytesPerCluster = offset / v.bytesPerCluster + l ∧
      offset / v.bytesPerCluster + l < count := by
  have hpos := hg.bytesPerCluster_pos
  have hdiv := Nat.div_add_mod' offset v.bytesPerCluster
  have hlast : (offset + n - 1) / v.bytesPerCluster = offset / v.bytesPerCluster +
      (offset % v.bytesPerCluster + n - 1) / v.bytesPerCluster := by
    rw [show offset + n - 1 = offset % v.bytesPerCluster + n - 1 +
      offset / v.bytesPerCluster * v.bytesPerCluster by omega, Nat.add_mul_div_right _ _ hpos,
      Nat.add_comm]
  refine ⟨_, rfl, hlast, ?_⟩
  rw [← hlast, Nat.div_lt_iff_lt_mul hpos]
  have := hf.long
  omega

theorem readLength_le {length : ℕ} (hn : 0 < readLength file offset length) :
    readLength file offset length ≤ length ∧
      offset + readLength file offset length ≤ file.fileSize := by
  rw [readLength] at hn ⊢
  omega

/-- `Fat32::read` for a read that is not empty. -/
theorem read_eq (hg : v.Geometry) (hf : v.HasClusters file c count) {length : ℕ} (hlen : 1 ≤ length)
    (hsum : offset + length < 2 ^ 64) (hn : 0 < readLength file offset length)
    (host : BlockHost σ) :
    v.read pages file bufferAddress offset length host =
      inside (loop (v.readStep pages bufferAddress (readLength file offset length)) maxIterations
        ⟨offset % v.bytesPerCluster, c (offset / v.bytesPerCluster), 0, host⟩) := by
  obtain ⟨l, -, -, hcount⟩ := exists_span hg hf hn (readLength_le hn).2
  rw [read, clampLength_eq hlen hsum, Exec.ok_bind, if_neg hn.ne']
  simp only
  rw [transfer_eq hg hf (by omega) (by omega)]

/-- `Fat32::read` returns the bytes of the file, wherever its clusters may be. -/
theorem read_content (hg : v.Geometry) (hf : v.HasClusters file c count) {length : ℕ}
    (hbounce : BounceBuffers pages) (hbuf : bufferAddress + length ≤ 2 ^ 64)
    (hlen : 1 ≤ length) (hsum : offset + length < 2 ^ 64)
    (hread : v.Readable c offset (readLength file offset length)) (host : BlockHost σ) :
    ∃ r, v.read pages file bufferAddress offset length host = .ok r ∧
      v.ReadsBytes c host.disk bufferAddress offset (readLength file offset length) r := by
  by_cases hn : readLength file offset length = 0
  · refine ⟨(.ok 0, host), ?_, by rw [hn], by simp [hn]⟩
    rw [read, clampLength_eq hlen hsum, Exec.ok_bind, if_pos hn]
    rfl
  have hpos := hg.bytesPerCluster_pos
  obtain ⟨hle, hsize⟩ := readLength_le (Nat.pos_of_ne_zero hn)
  obtain ⟨l, hl, hlast, hcount⟩ := exists_span hg hf (Nat.pos_of_ne_zero hn) hsize
  have hdiv := (Nat.div_add_mod' offset v.bytesPerCluster).symm
  have hmod := Nat.mod_lt offset hpos
  have h32 := hf.size
  suffices h : ∃ r, loop (v.readStep pages bufferAddress (readLength file offset length))
      maxIterations ⟨offset % v.bytesPerCluster, c (offset / v.bytesPerCluster), 0, host⟩ = .ok r ∧
        v.ReadsBytes c host.disk bufferAddress offset (readLength file offset length) r by
    obtain ⟨r, hr, hbytes⟩ := h
    exact ⟨r, by rw [read_eq hg hf hlen hsum (by omega), hr, inside], hbytes⟩
  rw [Readable, hlast] at hread
  by_cases hadj : Adjacent c (offset / v.bytesPerCluster) (offset / v.bytesPerCluster + l)
  · exact readLoop_adjacent hg hf hbounce (by omega) (by omega) (by omega) hdiv hmod hl hcount hadj
      host
  · obtain ⟨hd, hdvd, x, hx, hne⟩ := (hread.resolve_left hn).resolve_left hadj
    refine readLoop_broken hg hf hbounce (by omega) (by omega) (by omega) hdiv ⟨hd, hmod⟩ ?_ hcount
      hx hne hadj host
    -- The read ends with its last cluster.
    obtain ⟨m, hm⟩ := hdvd
    have hm1 : m = offset / v.bytesPerCluster + l + 1 := by
      rw [← hlast, hm]
      have hmpos : 0 < m := Nat.pos_of_ne_zero fun h0 => by
        rw [h0] at hm
        omega
      obtain ⟨m, rfl⟩ : ∃ m', m = m' + 1 := ⟨m - 1, by omega⟩
      rw [show v.bytesPerCluster * (m + 1) - 1 = v.bytesPerCluster - 1 + v.bytesPerCluster * m by
        rw [Nat.mul_add]; omega, Nat.add_mul_div_left _ _ hpos, Nat.div_eq_of_lt (by omega)]
      omega
    rw [hm, hm1, Nat.mul_comm]

/-- A file in consecutive clusters is read exactly. -/
theorem read_consecutive (hg : v.Geometry) {length : ℕ}
    (hf : v.HasClusters file (fun i => file.entryCluster + i) count) (hbounce : BounceBuffers pages)
    (hbuf : bufferAddress + length ≤ 2 ^ 64) (hlen : 1 ≤ length) (hsum : offset + length < 2 ^ 64)
    (host : BlockHost σ) :
    ∃ n r, n = (if file.fileSize ≤ offset then 0 else min length (file.fileSize - offset)) ∧
      v.read pages file bufferAddress offset length host = .ok r ∧ r.1 = .ok n ∧
      ∀ j < n, r.2.memory.bytes (bufferAddress + j) =
        v.fileByte host.disk (fun i => file.entryCluster + i) (offset + j) := by
  have hn : readLength file offset length =
      if file.fileSize ≤ offset then 0 else min length (file.fileSize - offset) := by
    rw [readLength]
    split_ifs <;> omega
  obtain ⟨r, hr, hok, hbytes⟩ := read_content hg hf hbounce hbuf hlen hsum
    (.inr (.inl fun i _ _ => rfl)) host
  exact ⟨_, r, hn, hr, hok, hbytes⟩

end Read

/-! ### Small volumes -/

/-- A volume with clusters of one sector, where cluster `step * i + 2` is followed by
`step * (i + 1) + 2` up to `last`. -/
def stepVolume (step last : ℕ) : Fat32 where
  baseLba := 0
  lbaSize := 512
  bytesPerSector := 512
  sectorsPerCluster := 1
  reservedSectors := 32
  fatSectors := 1
  numberOfFats := 2
  fat cluster := if cluster < last then cluster + step else 0x0FFFFFFF

/-- One page that is always free. -/
def onePage : Pages Unit where
  allocatePages _ _ s := (some 0x100000, s)
  freePages _ _ s := s

def blankHost : BlockHost Unit :=
  ⟨⟨fun _ => 0, []⟩, fun _ => 0, ()⟩

theorem stepVolume_geometry (step last : ℕ) : (stepVolume step last).Geometry := by
  constructor <;> simp [stepVolume]

theorem stepVolume_hasClusters (step count : ℕ) (hstep : 0 < step) (hcount : step * count ≤ 126)
    (hpos : 0 < count) :
    (stepVolume step (step * (count - 1) + 2)).HasClusters ⟨2, 512 * count⟩
      (fun i => step * i + 2) count := by
  have hmono : ∀ {i}, i < count → step * i + step ≤ step * count := by
    intro i hi
    have := Nat.mul_le_mul_left step (show i + 1 ≤ count by omega)
    rwa [Nat.mul_add, Nat.mul_one] at this
  have hle := Nat.le_mul_of_pos_left count hstep
  refine ⟨rfl, fun i hi => ?_, fun i _ j _ hij => ?_, ?_, by simp only; omega, fun i hi => ?_⟩
  · have := hmono hi
    have hlt := Nat.mul_le_mul_left step (show i + 1 ≤ count - 1 by omega)
    have := hmono (show count - 1 < count by omega)
    rw [Nat.mul_add, Nat.mul_one] at hlt
    have hfat : (stepVolume step (step * (count - 1) + 2)).fat (step * i + 2) =
        step * (i + 1) + 2 := by
      simp only [stepVolume]
      rw [if_pos (by omega), Nat.mul_add]
      omega
    rw [getNextCluster, hfat, if_pos (by simp only [stepVolume]; omega), if_pos (by omega)]
  · exact Nat.eq_of_mul_eq_mul_left hstep (by omega)
  · simp [bytesPerCluster, stepVolume, Nat.mul_comm]
  · have := hmono hi
    simp only [stepVolume]
    omega

theorem bounceBuffers_onePage : BounceBuffers onePage := by
  intro n hn s
  refine ⟨0x100000, s, rfl, ?_⟩
  omega

/-- One byte of the second of three clusters. -/
theorem read_consecutive_byte :
    ∃ n r, n = 1 ∧ (stepVolume 1 4).read onePage ⟨2, 1536⟩ 0x40000000 700 1 blankHost = .ok r ∧
      r.1 = .ok n ∧ ∀ j < n, r.2.memory.bytes (0x40000000 + j) =
        (stepVolume 1 4).fileByte blankHost.disk (fun i => 2 + i) (700 + j) := by
  have hf : (stepVolume 1 4).HasClusters ⟨2, 1536⟩ (fun i => 2 + i) 3 := by
    simpa [Nat.add_comm] using stepVolume_hasClusters 1 3 (by decide) (by decide) (by decide)
  exact read_consecutive (stepVolume_geometry 1 4) hf bounceBuffers_onePage
    (show 0x40000000 + 1 ≤ 2 ^ 64 by decide) le_rfl (show 700 + 1 < 2 ^ 64 by decide) blankHost

end Fat32

end MiniVisor
