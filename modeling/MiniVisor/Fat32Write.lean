import MiniVisor.Fat32Read

/-!
# What `Fat32::write` stores

A write of whole sectors to a file in consecutive clusters is stored, and later reads return it. There
is one exception : a write that starts at the second sector of a cluster is refused, because the sectors
to skip are only counted if the offset is larger than one sector.
-/

namespace MiniVisor

open Machine

namespace Fat32

variable {v : Fat32} {σ : Type} {pages : Pages σ} {file : FileInfo} {c : ℕ → ℕ}
  {bufferAddress count offset n : ℕ}

/-! ## The inner loop -/

/-- With a sector left to write, both inner loops do the same. -/
theorem writeRunStep_eq {run : Run} (hle : run.bytes + v.bytesPerSector ≤ n) :
    v.writeRunStep n run = v.runStep n run := by
  rw [writeRunStep, checkedSub_of_le (by omega), Exec.ok_bind, if_neg (by omega)]

/-- The inner loop on adjacent clusters, from an offset and for a length in whole sectors. -/
theorem writeLoop_adjacent (hg : v.Geometry) {i d₀ so d T : ℕ} (hd : d ≤ v.bytesPerSector)
    (hdvd : v.bytesPerSector ∣ n + d) (hn : v.bytesPerSector ≤ n) (hlen : n < 2 ^ 32)
    (hlo : T * v.bytesPerCluster < n + d) (hhi : n + d ≤ (T + 1) * v.bytesPerCluster)
    (hc : ∀ t < T, c (i + t) < 0x0FFFFFF8)
    (hnext : ∀ t < T, v.getNextCluster (c (i + t)) = some (c (i + t) + 1) ∧
      c (i + (t + 1)) = c (i + t) + 1)
    (hstart : v.runStep n (.start (c i) d₀) = v.runStep n (v.runAfter c i so d 0)) :
    loop (v.writeRunStep n) maxIterations (.start (c i) d₀) = .ok (.ok { v.runAfter c i so d T with
      sectors := 1 + (n + d - 1) / v.bytesPerSector, bytes := n }) := by
  have hb := hg.sectorLt
  have hT : T < maxIterations := hg.lt_maxIterations (by omega)
  -- A sector is left to write before each cluster.
  have hleft : ∀ t ≤ T, t * v.bytesPerCluster - d + v.bytesPerSector ≤ n := by
    intro t ht
    have hmono : t * v.bytesPerCluster ≤ T * v.bytesPerCluster := Nat.mul_le_mul_right _ ht
    obtain ⟨m, hm⟩ := hdvd
    have hlt : t * v.sectorsPerCluster < m := by
      refine Nat.lt_of_mul_lt_mul_right (a := v.bytesPerSector) ?_
      rw [Nat.mul_assoc, ← bytesPerCluster, Nat.mul_comm m, ← hm]
      omega
    have hle := Nat.mul_le_mul_right v.bytesPerSector (Nat.succ_le_of_lt hlt)
    rw [Nat.succ_mul, Nat.mul_assoc, ← bytesPerCluster, Nat.mul_comm m, ← hm] at hle
    omega
  have hguard : ∀ t ≤ T, v.writeRunStep n (v.runAfter c i so d t) =
      v.runStep n (v.runAfter c i so d t) := fun t ht => writeRunStep_eq (hleft t ht)
  have hfirst : v.writeRunStep n (.start (c i) d₀) = v.writeRunStep n (v.runAfter c i so d 0) := by
    rw [hguard 0 (Nat.zero_le T), ← hstart, writeRunStep_eq]
    simpa [Run.start] using hn
  rw [loop_congr hfirst]
  refine loop_of_steps (fun t => v.runAfter c i so d t) T 0 _ (fun t _ ht => ?_) ?_ hT
  · have hmono : (t + 1) * v.bytesPerCluster ≤ T * v.bytesPerCluster :=
      Nat.mul_le_mul_right _ (by omega)
    rw [hguard t (by omega)]
    exact runStep_next hg hd hlen (by omega) (hc t (by omega)) (hnext t (by omega))
  · rw [Nat.zero_add, hguard T le_rfl]
    exact runStep_last hg hd hlen hlo hhi

/-- Sectors of a cluster are written. -/
theorem writeSectors_eq (buffer : ℕ) (h : BlockHost σ) (hg : v.Geometry) {cluster so sectors : ℕ}
    (hlt : v.reservedSectors + v.numberOfFats * v.fatSectors +
      (cluster - 2) * v.sectorsPerCluster + so < 2 ^ 32) (hs : sectors < 2 ^ 32) :
    ∃ h', v.writeSectors buffer (v.reservedSectors + v.numberOfFats * v.fatSectors +
        (cluster - 2) * v.sectorsPerCluster + so) sectors h = .ok (.ok (), h') ∧
      ∀ j < sectors * v.bytesPerSector,
        h'.disk (v.clusterAddress cluster + so * v.bytesPerSector + j) =
          h.memory.bytes (buffer + j) := by
  obtain ⟨haddr, hlen, haligned⟩ := sectorAddress_eq hg hlt hs
  rw [writeSectors, haddr, Exec.ok_bind, hlen, Exec.ok_bind, BlockHost.blkWrite, if_neg haligned]
  refine ⟨_, rfl, fun j hj => ?_⟩
  simp only
  rw [if_pos ⟨by omega, by omega⟩, Nat.add_sub_cancel_left]

/-! ## The whole write -/

/-- `Fat32::write` for a write that is not empty. -/
theorem write_eq_readLength (hg : v.Geometry) (hf : v.HasClusters file c count) {length : ℕ}
    (hlen : 1 ≤ length) (hsum : offset + length < 2 ^ 64) (hn : 0 < readLength file offset length)
    (host : BlockHost σ) :
    v.write file bufferAddress offset length host =
      inside (loop (v.writeStep bufferAddress (readLength file offset length)) maxIterations
        ⟨offset % v.bytesPerCluster, c (offset / v.bytesPerCluster), 0, host⟩) := by
  obtain ⟨l, -, -, hcount⟩ := exists_span hg hf hn (readLength_le hn).2
  rw [write, clampLength_eq hlen hsum, Exec.ok_bind, if_neg hn.ne']
  simp only
  rw [transfer_eq hg hf (by omega) (by omega)]

/-- `Fat32::write` inside the file. -/
theorem write_eq (hg : v.Geometry) (hf : v.HasClusters file c count) {length : ℕ} (hlen : 1 ≤ length)
    (hsize : offset + length ≤ file.fileSize) (host : BlockHost σ) :
    v.write file bufferAddress offset length host =
      inside (loop (v.writeStep bufferAddress length) maxIterations
        ⟨offset % v.bytesPerCluster, c (offset / v.bytesPerCluster), 0, host⟩) := by
  have h32 := hf.size
  have hn : readLength file offset length = length := by
    rw [readLength]
    omega
  rw [write_eq_readLength hg hf hlen (by omega) (by omega), hn]

/-- The write is stored, and a read of any part of it returns it. -/
def Stored (pages : Pages σ) (v : Fat32) (file : FileInfo) (c : ℕ → ℕ)
    (bufferAddress offset length : ℕ) (host : BlockHost σ) : Prop :=
  ∃ host', v.write file bufferAddress offset length host = .ok (.ok length, host') ∧
    (∀ j < length, v.fileByte host'.disk c (offset + j) = host.memory.bytes (bufferAddress + j)) ∧
    ∀ (later : BlockHost σ) (bufferAddress' offset' length' : ℕ), later.disk = host'.disk →
      1 ≤ length' → offset ≤ offset' → offset' + length' ≤ offset + length →
      bufferAddress' + length' ≤ 2 ^ 64 →
      ∃ r, v.read pages file bufferAddress' offset' length' later = .ok r ∧ r.1 = .ok length' ∧
        ∀ j < length', r.2.memory.bytes (bufferAddress' + j) =
          host.memory.bytes (bufferAddress + (offset' - offset) + j)

section

variable {length : ℕ} (hg : v.Geometry)
  (hf : v.HasClusters file (fun i => file.entryCluster + i) count) (hlen : 1 ≤ length)
  (hoffset : v.bytesPerSector ∣ offset) (hlength : v.bytesPerSector ∣ length)
  (hsize : offset + length ≤ file.fileSize)

include hg hf hlen hoffset hlength hsize

/-- The run that the inner loop finds. -/
theorem exists_writeRun :
    ∃ run so d, loop (v.writeRunStep length) maxIterations (.start
        (file.entryCluster + offset / v.bytesPerCluster) (offset % v.bytesPerCluster)) =
        .ok (.ok run) ∧ run.bytes = length ∧ run.sectorOffset = so ∧ run.dataOffsetBackup = d ∧
      so < v.sectorsPerCluster ∧ offset % v.bytesPerCluster = so * v.bytesPerSector + d ∧
      (d = 0 → run.sectors * v.bytesPerSector = length) ∧
      (d = 0 ↔ offset % v.bytesPerCluster ≠ v.bytesPerSector) := by
  have hpos := hg.bytesPerCluster_pos
  have hspos := hg.sectorPos
  have h32 := hf.size
  obtain ⟨l, hl, -, hcount⟩ := exists_span hg hf hlen hsize
  have hmod := Nat.mod_lt offset hpos
  obtain ⟨so, d, hd, hsplit, hlast, hso0, hso, hstart⟩ := runStep_start length
    (fun i => file.entryCluster + i) (offset / v.bytesPerCluster) hg hmod
  have hdvd : v.bytesPerSector ∣ d := by
    have hcluster : v.bytesPerSector ∣ v.bytesPerCluster := Dvd.intro_left _ rfl
    have := (Nat.dvd_mod_iff hcluster).mpr hoffset
    rw [hsplit] at this
    exact (Nat.dvd_add_right (Dvd.intro_left _ rfl)).mp this
  -- Only an offset of exactly one sector is not split.
  have hd0 : d = 0 ↔ offset % v.bytesPerCluster ≠ v.bytesPerSector := by
    constructor
    · rintro rfl heq
      rw [hso0 (by omega), Nat.zero_mul] at hsplit
      omega
    · intro hne
      by_contra hd0
      have hle := Nat.le_of_dvd (Nat.pos_of_ne_zero hd0) hdvd
      obtain rfl | hlt := hlast
      · omega
      · omega
  obtain ⟨T, hT, hTlo, hThi⟩ := exists_parts hpos (show 0 < length + d by omega)
  have hTl : T ≤ l := by
    rw [← hT, ← hl]
    exact Nat.div_le_div_right (by omega)
  have hloop := writeLoop_adjacent hg hd (Nat.dvd_add hlength hdvd) (Nat.le_of_dvd hlen hlength)
    (by omega) hTlo hThi
    (fun t ht => (hf.onVolume (offset / v.bytesPerCluster + t) (by omega)).2.1)
    (fun t ht => ⟨by rw [hf.next _ (by omega)]; rfl, rfl⟩) hstart
  refine ⟨_, so, d, hloop, rfl, rfl, rfl, hso, hsplit, ?_, hd0⟩
  rintro rfl
  obtain ⟨m, rfl⟩ := hlength
  have hm : 0 < m := Nat.pos_of_ne_zero fun h0 => by rw [h0] at hlen; omega
  have hS : (v.bytesPerSector * m - 1) / v.bytesPerSector = m - 1 := by
    rw [show v.bytesPerSector * m - 1 = v.bytesPerSector - 1 + v.bytesPerSector * (m - 1) by
      have := Nat.mul_sub_one v.bytesPerSector m
      have := Nat.le_mul_of_pos_right v.bytesPerSector hm
      omega, Nat.add_mul_div_left _ _ hspos, Nat.div_eq_of_lt (by omega), Nat.zero_add]
  simp only [Nat.add_zero, hS]
  rw [Nat.add_sub_of_le hm, Nat.mul_comm]

/-- The second sector of a cluster is refused. -/
theorem write_refused (heq : offset % v.bytesPerCluster = v.bytesPerSector) (host : BlockHost σ) :
    v.write file bufferAddress offset length host = .ok (.error (), host) := by
  obtain ⟨run, so, d, hloop, -, -, hbackup, -, -, -, hd0⟩ :=
    exists_writeRun hg hf hlen hoffset hlength hsize
  have hne : run.dataOffsetBackup ≠ 0 := by
    rw [hbackup]
    exact fun h => hd0.mp h heq
  have hstep : v.writeStep bufferAddress length ⟨offset % v.bytesPerCluster,
      file.entryCluster + offset / v.bytesPerCluster, 0, host⟩ = .ok (.done (.error (), host)) := by
    simp only [writeStep, hloop, Exec.ok_bind, if_pos hne, Exec.pure_eq_ok]
  rw [write_eq hg hf hlen hsize, loop_of_steps (fun _ => _) 0 0 _
    (fun t _ ht => absurd ht (by omega)) hstep (by decide), inside]

/-- All other sectors are stored. -/
theorem write_stored (hne : offset % v.bytesPerCluster ≠ v.bytesPerSector)
    (hbuf : bufferAddress + length ≤ 2 ^ 64) (host : BlockHost σ) :
    ∃ host', v.write file bufferAddress offset length host = .ok (.ok length, host') ∧
      ∀ j < length, v.fileByte host'.disk (fun i => file.entryCluster + i) (offset + j) =
        host.memory.bytes (bufferAddress + j) := by
  obtain ⟨run, so, d, hloop, hbytes, hsector, hbackup, hso, hsplit, hsectors, hd0⟩ :=
    exists_writeRun hg hf hlen hoffset hlength hsize
  obtain rfl := hd0.mpr hne
  have hwhole := hsectors rfl
  have h32 := hf.size
  have h512 : 512 ≤ v.bytesPerSector := Nat.le_of_dvd hg.sectorPos hg.sector
  have hsectors32 : run.sectors < 2 ^ 32 := by
    have := Nat.mul_le_mul_left run.sectors h512
    omega
  obtain ⟨l, hl, -, hcount⟩ := exists_span hg hf hlen hsize
  obtain ⟨h2, -, hvol⟩ := hf.onVolume (offset / v.bytesPerCluster) (by omega)
  have hfirst := clusterToSector_eq h2 (v := v) (by omega)
  have hadd := checkedAdd_of_lt (w := 32) (a := v.reservedSectors + v.numberOfFats * v.fatSectors +
    (file.entryCluster + offset / v.bytesPerCluster - 2) * v.sectorsPerCluster) (b := so) (by omega)
  have hbuf0 : checkedAdd 64 bufferAddress 0 = .ok bufferAddress :=
    checkedAdd_of_lt (by omega)
  obtain ⟨host', hwrite, hdisk⟩ := writeSectors_eq bufferAddress host hg
    (show v.reservedSectors + v.numberOfFats * v.fatSectors +
      (file.entryCluster + offset / v.bytesPerCluster - 2) * v.sectorsPerCluster + so < 2 ^ 32
      by omega) hsectors32
  refine ⟨host', ?_, fun j hj => ?_⟩
  · have hsum : checkedAdd 64 0 length = .ok length := by
      rw [checkedAdd_of_lt (by omega), Nat.zero_add]
    have hstep : v.writeStep bufferAddress length ⟨offset % v.bytesPerCluster,
        file.entryCluster + offset / v.bytesPerCluster, 0, host⟩ =
          .ok (.done (.ok length, host')) := by
      simp only [writeStep, hloop, Exec.ok_bind, hbackup, ne_eq, not_true_eq_false, if_false,
        hfirst, hsector, hadd, hbuf0, hwrite]
      simp only [nextRun, hbytes, hsum, Exec.ok_bind, if_true, Exec.pure_eq_ok]
    rw [write_eq hg hf hlen hsize, loop_of_steps (fun _ => _) 0 0 _
      (fun t _ ht => absurd ht (by omega)) hstep (by decide), inside]
  · have hdiv := Nat.div_add_mod' offset v.bytesPerCluster
    have hfile := fileByte_adjacent hg host'.disk
      (fun i _ _ => rfl : Adjacent (fun i => file.entryCluster + i) (offset / v.bytesPerCluster)
        (offset / v.bytesPerCluster + l)) h2 (x := offset % v.bytesPerCluster + j) (by
      rw [← hl]
      exact Nat.add_le_add_left (Nat.div_le_div_right (by omega)) _)
    rw [show offset + j = offset / v.bytesPerCluster * v.bytesPerCluster +
      (offset % v.bytesPerCluster + j) by omega, hfile, hsplit, Nat.add_zero, ← Nat.add_assoc,
      hdisk j (by omega)]

end

/-- Whole sectors of a file in consecutive clusters are stored, unless the write starts at the second
sector of a cluster. -/
theorem write_stored_iff (hg : v.Geometry) {length : ℕ}
    (hf : v.HasClusters file (fun i => file.entryCluster + i) count) (hbounce : BounceBuffers pages)
    (hbuf : bufferAddress + length ≤ 2 ^ 64) (hlen : 1 ≤ length)
    (hoffset : v.bytesPerSector ∣ offset) (hlength : v.bytesPerSector ∣ length)
    (hsize : offset + length ≤ file.fileSize) (host : BlockHost σ) :
    Stored pages v file (fun i => file.entryCluster + i) bufferAddress offset length host ↔
      offset % v.bytesPerCluster ≠ v.bytesPerSector := by
  constructor
  · rintro ⟨host', hwrite, -⟩ heq
    rw [write_refused hg hf hlen hoffset hlength hsize heq] at hwrite
    cases hwrite
  · intro hne
    obtain ⟨host', hwrite, hbytes⟩ := write_stored hg hf hlen hoffset hlength hsize hne hbuf host
    refine ⟨host', hwrite, hbytes, fun later buf' offset' length' hdisk hlen' hlo hhi hbuf' => ?_⟩
    have h32 := hf.size
    have hn : readLength file offset' length' = length' := by
      rw [readLength]
      omega
    obtain ⟨r, hr, hok, hread⟩ := read_content hg hf hbounce hbuf' hlen'
      (show offset' + length' < 2 ^ 64 by omega)
      (.inr (.inl fun i _ _ => rfl)) later
    rw [hn] at hok hread
    refine ⟨r, hr, hok, fun j hj => ?_⟩
    rw [hread j hj, hdisk, show offset' + j = offset + (offset' - offset + j) by omega,
      hbytes _ (by omega), Nat.add_assoc]

/-- The second of three sectors, in clusters of one sector. -/
theorem write_stored_iff_second :
    Stored onePage (stepVolume 1 4) ⟨2, 1536⟩ (fun i => 2 + i) 0x40000000 512 512 blankHost := by
  have hf : (stepVolume 1 4).HasClusters ⟨2, 1536⟩ (fun i => 2 + i) 3 := by
    simpa [Nat.add_comm] using stepVolume_hasClusters 1 3 (by decide) (by decide) (by decide)
  exact (write_stored_iff (stepVolume_geometry 1 4) hf bounceBuffers_onePage (by decide) (by decide)
    (by decide) (by decide) (by decide) blankHost).mpr (by decide)

/-- One cluster of two sectors, and a write to its second sector. -/
theorem write_not_stored :
    ∃ v : Fat32, v.Geometry ∧ v.HasClusters ⟨2, 1024⟩ (fun i => 2 + i) 1 ∧ v.bytesPerSector = 512 ∧
      BounceBuffers onePage ∧
      ¬ Stored onePage v ⟨2, 1024⟩ (fun i => 2 + i) 0x40000000 512 512 blankHost := by
  let v : Fat32 := { stepVolume 1 2 with sectorsPerCluster := 2 }
  have hg : v.Geometry := by constructor <;> simp [v, stepVolume]
  let file : FileInfo := ⟨2, 1024⟩
  have hf : v.HasClusters file (fun i => file.entryCluster + i) 1 := by
    refine ⟨rfl, by omega, by omega, by decide, by decide, fun i hi => ?_⟩
    simp only [v, file, stepVolume]
    omega
  refine ⟨v, hg, hf, rfl, bounceBuffers_onePage, ?_⟩
  rintro ⟨host', hwrite, -⟩
  rw [write_refused hg hf (by decide) (by decide) (by decide) (by decide)
    (by decide)] at hwrite
  cases hwrite

end Fat32

end MiniVisor
