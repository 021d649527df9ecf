import MiniVisor.Fat32Read

/-!
# Reads and the placement of clusters

Two volumes hold the same file in different clusters. `Fat32::read` gives the same on both if both are
`Readable`. That is also necessary : a volume that is not `Readable` is told apart from one whose
clusters are all adjacent. The read then either never counts `n` bytes (`readLoop_misses`), or takes the
bytes behind a broken run for those of the next cluster (`readLoop_wrong`).
-/

namespace MiniVisor

open Machine

namespace Fat32

variable {v : Fat32} {σ : Type} {pages : Pages σ} {file : FileInfo} {c : ℕ → ℕ}
  {bufferAddress count offset n : ℕ}

/-! ## Runs after the first one -/

/-- What an iteration of the inner loop can do at the start of a cluster. -/
theorem runStep_cases {run : Run} {o : Iter Run (Except Unit Run)} (hd : run.dataOffset = 0)
    (h : v.runStep n run = .ok o) :
    (∃ s, o = .done (.ok { run with sectors := s, bytes := n })) ∨ o = .done (.error ()) ∨
      ∃ x s, v.getNextCluster run.cluster = some x ∧
        ((x ≠ run.cluster + 1 ∧
          o = .done (.ok { run with sectors := s, bytes := run.bytes + v.bytesPerCluster })) ∨
        (x = run.cluster + 1 ∧
          o = .next { run with
            sectors := s, bytes := run.bytes + v.bytesPerCluster, dataOffset := 0, cluster := x })) := by
  have hskip : v.skipSectors run = .ok run := by
    rw [skipSectors, if_neg (by omega)]
    rfl
  rw [runStep, hskip, Exec.ok_bind] at h
  simp only [Exec.bind_eq_ok, checkedSub_eq_ok, checkedAdd_eq_ok] at h
  obtain ⟨left, ⟨hle, rfl⟩, left', ⟨-, rfl⟩, h⟩ := h
  split_ifs at h with hlast
  · simp only [Exec.bind_eq_ok, checkedSub_eq_ok, checkedAdd_eq_ok] at h
    obtain ⟨q, -, more, -, sectors, -, rest, ⟨-, rfl⟩, bytes, ⟨-, rfl⟩, h⟩ := h
    left
    refine ⟨sectors, ?_⟩
    rw [← Except.ok.inj h, Nat.add_sub_of_le hle]
  · right
    simp only [Exec.bind_eq_ok, checkedSub_eq_ok, checkedAdd_eq_ok] at h
    obtain ⟨sectors, -, whole, ⟨-, rfl⟩, bytes, ⟨-, rfl⟩, h⟩ := h
    rw [hd, Nat.sub_zero] at h
    split at h
    · exact .inl (Except.ok.inj h).symm
    · rename_i x hx
      simp only [Exec.bind_eq_ok, checkedAdd_eq_ok] at h
      obtain ⟨adjacent, ⟨-, rfl⟩, h⟩ := h
      refine .inr ⟨x, sectors, hx, ?_⟩
      split_ifs at h with hne
      · exact .inl ⟨hne, by rw [hd]; exact (Except.ok.inj h).symm⟩
      · exact .inr ⟨not_not.mp hne, (Except.ok.inj h).symm⟩

/-- What the inner loop finds from the start of a cluster : the full length, or whole clusters up to one
whose successor is elsewhere. -/
theorem runLoop_found (hf : v.HasClusters file c count) {cluster : ℕ} {run : Run}
    (h : loop (v.runStep n) maxIterations (.start cluster 0) = .ok (.ok run)) :
    run.dataOffsetBackup = 0 ∧ (run.bytes = n ∨ ∃ t x, run.bytes = (t + 1) * v.bytesPerCluster ∧
      v.getNextCluster run.cluster = some x ∧ x ≠ run.cluster + 1 ∧
        ∀ i, cluster = c i → i + t < count → run.cluster = c (i + t)) := by
  refine loop_ok (I := fun s => s.dataOffset = 0 ∧ s.dataOffsetBackup = 0 ∧
      ∃ t, s.bytes = t * v.bytesPerCluster ∧ ∀ i, cluster = c i → i + t < count →
        s.cluster = c (i + t)) (C := fun _ => True)
    (Q := fun r => ∀ run, r = .ok run → run.dataOffsetBackup = 0 ∧ (run.bytes = n ∨
      ∃ t x, run.bytes = (t + 1) * v.bytesPerCluster ∧ v.getNextCluster run.cluster = some x ∧
        x ≠ run.cluster + 1 ∧ ∀ i, cluster = c i → i + t < count → run.cluster = c (i + t)))
    ?_ ?_ _ _ ⟨rfl, rfl, 0, by simp [Run.start], fun i hi _ => hi⟩ (throughout_true _ _) h run rfl
  · rintro s s' ⟨hd, hb, t, ht, hc⟩ - hs
    rcases runStep_cases hd hs with ⟨_, ho⟩ | ho | ⟨x, sectors, hx, ⟨_, ho⟩ | ⟨rfl, ho⟩⟩
    · cases ho
    · cases ho
    · cases ho
    · cases ho
      refine ⟨rfl, hb, t + 1, by simp only [ht]; ring, fun i hi hlt => ?_⟩
      have hcl := hc i hi (by omega)
      rw [hcl, hf.next (i + t) (by omega)] at hx
      rw [hcl]
      exact (Option.some.inj hx).symm
  · rintro s r ⟨hd, hb, t, ht, hc⟩ - hs run rfl
    rcases runStep_cases hd hs with ⟨_, ho⟩ | ho | ⟨x, sectors, hx, ⟨hne, ho⟩ | ⟨_, ho⟩⟩
    · cases ho
      exact ⟨hb, .inl rfl⟩
    · cases ho
    · cases ho
      exact ⟨hb, .inr ⟨t, x, by simp only [ht]; ring, hx, hne, hc⟩⟩
    · cases ho

/-- A transfer at the start of a sector leaves what is before it in the buffer. -/
theorem readRun_later {cur : Cursor σ} {run : Run} {r : Except Unit Unit × BlockHost σ}
    (hd : run.dataOffsetBackup = 0) (h : v.readRun pages bufferAddress cur run = .ok r) {j : ℕ}
    (hj : j < cur.bufferPointer) :
    r.2.memory.bytes (bufferAddress + j) = cur.host.memory.bytes (bufferAddress + j) := by
  simp only [readRun, readSectors, Exec.bind_eq_ok, checkedAdd_eq_ok] at h
  obtain ⟨size, -, mask, -, aligned, -, h⟩ := h
  rw [if_neg (not_not.mpr hd)] at h
  simp only [Exec.bind_eq_ok, checkedAdd_eq_ok] at h
  obtain ⟨buffer, ⟨-, rfl⟩, sector, -, sector', -, address, -, length, -, h⟩ := h
  rw [← Except.ok.inj h, BlockHost.blkRead]
  split_ifs
  · rfl
  · simp only [BlockHost.receive, Memory.fill]
    rw [if_neg (by omega)]

/-- What can follow a run. -/
theorem nextRun_cases {cur : Cursor σ} {run : Run} {host : BlockHost σ}
    {o : Iter (Cursor σ) (Except Unit ℕ × BlockHost σ)} (h : v.nextRun n cur run host = .ok o) :
    (n = cur.bufferPointer + run.bytes ∧ o = .done (.ok n, host)) ∨ o = .done (.error (), host) ∨
      ∃ x, n ≠ cur.bufferPointer + run.bytes ∧ v.getNextCluster run.cluster = some x ∧
        o = .next ⟨0, x, cur.bufferPointer + run.bytes, host⟩ := by
  simp only [nextRun, Exec.bind_eq_ok, checkedAdd_eq_ok] at h
  obtain ⟨bp, ⟨-, rfl⟩, h⟩ := h
  split_ifs at h with hn
  · left
    rw [← hn] at h
    exact ⟨hn, (Except.ok.inj h).symm⟩
  · right
    split at h
    · exact .inl (Except.ok.inj h).symm
    · rename_i x hx
      exact .inr ⟨x, hn, hx, (Except.ok.inj h).symm⟩

/-- What an iteration of the outer loop can do at the start of a cluster. -/
theorem readStep_later {cur : Cursor σ} {o : Iter (Cursor σ) (Except Unit ℕ × BlockHost σ)}
    (hf : v.HasClusters file c count) (hd : cur.dataOffset = 0)
    (h : v.readStep pages bufferAddress n cur = .ok o) :
    (∃ host, o = .done (.error (), host)) ∨ ∃ run host,
      loop (v.runStep n) maxIterations (.start cur.cluster 0) = .ok (.ok run) ∧
      (∀ j < cur.bufferPointer,
        host.memory.bytes (bufferAddress + j) = cur.host.memory.bytes (bufferAddress + j)) ∧
      ((n = cur.bufferPointer + run.bytes ∧ o = .done (.ok n, host)) ∨
        ∃ x, n ≠ cur.bufferPointer + run.bytes ∧ v.getNextCluster run.cluster = some x ∧
          o = .next ⟨0, x, cur.bufferPointer + run.bytes, host⟩) := by
  rw [readStep, hd] at h
  simp only [Exec.bind_eq_ok] at h
  obtain ⟨r, hr, h⟩ := h
  cases r with
  | error e => exact .inl ⟨_, (Except.ok.inj h).symm⟩
  | ok run =>
    simp only [Exec.bind_eq_ok] at h
    obtain ⟨⟨r, host⟩, hrun, h⟩ := h
    cases r with
    | error e => exact .inl ⟨_, (Except.ok.inj h).symm⟩
    | ok u =>
      have hkeep : ∀ j < cur.bufferPointer, host.memory.bytes (bufferAddress + j) =
          cur.host.memory.bytes (bufferAddress + j) :=
        fun j => readRun_later (runLoop_found hf hr).1 hrun
      obtain hdone | ho | hnext := nextRun_cases h
      · exact .inr ⟨run, host, hr, hkeep, .inl hdone⟩
      · exact .inl ⟨host, ho⟩
      · exact .inr ⟨run, host, hr, hkeep, .inr hnext⟩

/-! ## Reads that go wrong -/

/-- The first place where the clusters are not adjacent. -/
theorem exists_break {k l : ℕ} (h : ¬ Adjacent c k (k + l)) :
    ∃ T < l, c (k + T + 1) ≠ c (k + T) + 1 ∧ ∀ t < T, c (k + (t + 1)) = c (k + t) + 1 := by
  have hex : ∃ t, t < l ∧ c (k + t + 1) ≠ c (k + t) + 1 := by
    by_contra hno
    refine h fun i hi hi' => ?_
    by_contra hne
    exact hno ⟨i - k, by omega, by rwa [show k + (i - k) = i by omega]⟩
  obtain ⟨hlt, hne⟩ := Nat.find_spec hex
  refine ⟨Nat.find hex, hlt, hne, fun t ht => ?_⟩
  by_contra hno
  exact Nat.find_min hex ht ⟨by omega, hno⟩

/-- After the first run, at the start of a cluster, or too far already. -/
structure Late (v : Fat32) (c : ℕ → ℕ) (offset n last : ℕ) (cur : Cursor σ) : Prop where
  dataOffset : cur.dataOffset = 0
  pos : 0 < cur.bufferPointer
  place : n < cur.bufferPointer ∨ ∃ i ≤ last, cur.cluster = c i ∧
    offset + cur.bufferPointer = i * v.bytesPerCluster

/-- A later run asks for the full length again, so only a run that is broken off at the end of the read
makes the count right. -/
theorem readStep_late (pages : Pages σ) (bufferAddress : ℕ)
    (hf : v.HasClusters file c count) {last : ℕ} (hlast : last < count)
    (hlo : last * v.bytesPerCluster < offset + n) (hhi : offset + n ≤ (last + 1) * v.bytesPerCluster)
    (hend : ¬ (v.bytesPerCluster ∣ offset + n ∧
      ∃ x, v.getNextCluster (c last) = some x ∧ x ≠ c last + 1))
    {cur : Cursor σ} (hlate : Late v c offset n last cur) :
    (∀ cur', v.readStep pages bufferAddress n cur = .ok (.next cur') →
      Late v c offset n last cur') ∧
    ∀ r, v.readStep pages bufferAddress n cur = .ok (.done r) → r.1 ≠ .ok n := by
  obtain ⟨hd, hpos, hplace⟩ := hlate
  -- Where a run of whole clusters from a known cluster ends.
  have hsum : ∀ {i t b}, offset + cur.bufferPointer = i * v.bytesPerCluster →
      b = (t + 1) * v.bytesPerCluster →
        offset + (cur.bufferPointer + b) = (i + t + 1) * v.bytesPerCluster := by
    intro i t b hi hb
    rw [hb, ← Nat.add_assoc, hi]
    ring
  constructor
  · intro cur' hs
    obtain ⟨_, ho⟩ | ⟨run, host, hrun, -, ⟨_, ho⟩ | ⟨x, hne, hx, ho⟩⟩ := readStep_later hf hd hs
    · cases ho
    · cases ho
    · cases ho
      refine ⟨rfl, by simp only; omega, ?_⟩
      simp only
      by_cases hover : n < cur.bufferPointer + run.bytes
      · exact .inl hover
      obtain ⟨-, hbytes | ⟨t, y, hbytes, -, -, hcl⟩⟩ := runLoop_found hf hrun
      · omega
      obtain hplace | ⟨i, hi, hci, hat⟩ := hplace
      · omega
      have hstop := hsum hat hbytes
      have hit : i + t + 1 < last + 1 :=
        Nat.lt_of_mul_lt_mul_right (a := v.bytesPerCluster) (by omega)
      refine .inr ⟨i + t + 1, by omega, ?_, hstop⟩
      rw [hcl i hci (by omega), hf.next (i + t) (by omega)] at hx
      exact (Option.some.inj hx).symm
  · intro r hs
    obtain ⟨_, ho⟩ | ⟨run, host, hrun, -, ⟨hn, ho⟩ | ⟨_, _, _, ho⟩⟩ := readStep_later hf hd hs
    · cases ho
      simp
    · exfalso
      obtain ⟨-, hbytes | ⟨t, y, hbytes, hy, hyne, hcl⟩⟩ := runLoop_found hf hrun
      · omega
      obtain hplace | ⟨i, hi, hci, hat⟩ := hplace
      · omega
      have hstop := hsum hat hbytes
      rw [← hn] at hstop
      have hge : last < i + t + 1 :=
        Nat.lt_of_mul_lt_mul_right (a := v.bytesPerCluster) (by omega)
      have hle : i + t + 1 ≤ last + 1 :=
        Nat.le_of_mul_le_mul_right (by omega)
          (Nat.pos_of_ne_zero fun h0 => by rw [h0] at hlo hhi; omega : 0 < v.bytesPerCluster)
      have heq : i + t = last := by omega
      refine hend ⟨⟨i + t + 1, by rw [hstop, Nat.mul_comm]⟩, ?_⟩
      rw [hcl i hci (by omega), heq] at hy hyne
      exact ⟨y, hy, hyne⟩
    · cases ho

/-- The disk whose only byte that is not zero is the first one of a cluster. -/
def markedDisk (v : Fat32) (cluster a : ℕ) : BitVec 8 :=
  if a = v.clusterAddress cluster then 1 else 0

theorem clusterAddress_inj (hg : v.Geometry) {x y : ℕ} (hx : 2 ≤ x) (hy : 2 ≤ y)
    (h : v.clusterAddress x = v.clusterAddress y) : x = y := by
  have hpos := hg.bytesPerCluster_pos
  wlog hle : x ≤ y generalizing x y
  · exact (this hy hx h.symm (by omega)).symm
  obtain ⟨m, rfl⟩ := Nat.exists_eq_add_of_le hle
  rw [clusterAddress_add hx] at h
  have hm : m * v.bytesPerCluster = 0 := by omega
  have : m = 0 := (Nat.mul_eq_zero.mp hm).resolve_right hpos.ne'
  omega

/-- What the first run finds if sectors are skipped : more than the clusters up to the first break. -/
theorem runLoop_beyond (so : ℕ) (hg : v.Geometry) (hf : v.HasClusters file c count) (hn : 0 < n)
    (hsize : n < 2 ^ 32) {k l d₀ T d : ℕ} (hl : (d₀ + n - 1) / v.bytesPerCluster = l)
    (hcount : k + l < count) (hd₀ : d₀ < v.bytesPerCluster) (hd : d ≤ v.bytesPerSector)
    (hd' : d < d₀) (hT : T < l) (hne : c (k + T + 1) ≠ c (k + T) + 1)
    (hT' : ∀ t < T, c (k + (t + 1)) = c (k + t) + 1) :
    ∃ run, loop (v.runStep n) maxIterations (v.runAfter c k so d 0) = .ok (.ok run) ∧
      run.sectorOffset = so ∧ run.dataOffsetBackup = d ∧
      (T + 1) * v.bytesPerCluster - d₀ < run.bytes ∧ run.bytes ≤ n ∧
      run.bytes + d ≤ run.sectors * v.bytesPerSector ∧
      run.sectors * v.bytesPerSector < 2 ^ 33 := by
  have hpos := hg.bytesPerCluster_pos
  have hb := hg.sectorLt
  have hnext : ∀ t < T, v.getNextCluster (c (k + t)) = some (c (k + t) + 1) ∧
      c (k + (t + 1)) = c (k + t) + 1 := fun t ht =>
    ⟨by rw [hf.next (k + t) (by omega), ← hT' t ht, Nat.add_assoc], hT' t ht⟩
  have hle := Nat.div_mul_le_self (d₀ + n - 1) v.bytesPerCluster
  rw [hl] at hle
  have hmono : (T + 1) * v.bytesPerCluster ≤ l * v.bytesPerCluster := Nat.mul_le_mul_right _ hT
  have hexp : (T + 1) * v.bytesPerCluster = T * v.bytesPerCluster + v.bytesPerCluster := by ring
  have hwhole : (T + 1) * v.sectorsPerCluster * v.bytesPerSector = (T + 1) * v.bytesPerCluster := by
    rw [bytesPerCluster, Nat.mul_assoc]
  by_cases hlast : n + d ≤ (T + 1) * v.bytesPerCluster
  · obtain ⟨t, -, htlo, hthi⟩ := exists_parts hpos (show 0 < n + d by omega)
    have htT : t < T + 1 := Nat.lt_of_mul_lt_mul_right (a := v.bytesPerCluster) (by omega)
    obtain ⟨S, hS, hSlo, hShi⟩ := exists_parts hg.sectorPos (show 0 < n + d by omega)
    refine ⟨_, runLoop_adjacent so hg hd hsize htlo hthi
      (fun t ht => (hf.onVolume (k + t) (by omega)).2.1) (fun t ht => hnext t (by omega)),
      rfl, rfl, ?_, le_rfl, ?_, ?_⟩
    · simp only
      omega
    · simp only [hS, Nat.add_comm 1 S]
      exact hShi
    · simp only [hS, Nat.add_mul]
      omega
  · refine ⟨_, runLoop_broken so hg hd hsize (by omega)
      (fun t ht => (hf.onVolume (k + t) (by omega)).2.1) hnext (hf.next (k + T) (by omega)) hne,
      rfl, rfl, ?_, ?_, ?_, ?_⟩
    · simp only
      omega
    · simp only
      omega
    · simp only [hwhole]
      omega
    · simp only [hwhole]
      omega

section

variable {k l d₀ : ℕ} (hg : v.Geometry) (hf : v.HasClusters file c count)
  (hbounce : BounceBuffers pages) (hbuf : bufferAddress + n ≤ 2 ^ 64) (hn : 0 < n)
  (hsize : n < 2 ^ 32) (hoffset : offset = k * v.bytesPerCluster + d₀)
  (hd₀ : d₀ < v.bytesPerCluster) (hl : (d₀ + n - 1) / v.bytesPerCluster = l) (hcount : k + l < count)
  (hadj : ¬ Adjacent c k (k + l))

include hg hf hbounce hbuf hn hsize hoffset hd₀ hl hcount hadj

/-- No sector is skipped, and the read does not end where a run is broken off : it never counts `n`
bytes. -/
theorem readLoop_misses (hd : d₀ ≤ v.bytesPerSector)
    (hend : ¬ (v.bytesPerCluster ∣ offset + n ∧
      ∃ x, v.getNextCluster (c (k + l)) = some x ∧ x ≠ c (k + l) + 1))
    {host : BlockHost σ} {r : Except Unit ℕ × BlockHost σ}
    (h : loop (v.readStep pages bufferAddress n) maxIterations ⟨d₀, c k, 0, host⟩ = .ok r) :
    r.1 ≠ .ok n := by
  obtain ⟨T, hT, hne, hT'⟩ := exists_break hadj
  have hpos := hg.bytesPerCluster_pos
  have hnext : ∀ t < T, v.getNextCluster (c (k + t)) = some (c (k + t) + 1) ∧
      c (k + (t + 1)) = c (k + t) + 1 := fun t ht =>
    ⟨by rw [hf.next (k + t) (by omega), ← hT' t ht, Nat.add_assoc], hT' t ht⟩
  have hle := Nat.div_mul_le_self (d₀ + n - 1) v.bytesPerCluster
  have hlt := Nat.lt_div_mul_add hpos (a := d₀ + n - 1)
  rw [hl] at hle hlt
  have hmono : (T + 1) * v.bytesPerCluster ≤ l * v.bytesPerCluster := Nat.mul_le_mul_right _ hT
  have hexp : (k + T + 1) * v.bytesPerCluster =
      k * v.bytesPerCluster + (T + 1) * v.bytesPerCluster := by ring
  have hkl : (k + l) * v.bytesPerCluster = k * v.bytesPerCluster + l * v.bytesPerCluster := by ring
  have hlast : offset + n ≤ (k + l + 1) * v.bytesPerCluster := by
    rw [Nat.add_mul _ 1]
    omega
  -- The first run is broken off before the end of the read.
  have hat : AtRun v c host.disk bufferAddress offset k ⟨d₀, c k, 0, host⟩ :=
    ⟨by simpa using hoffset, ⟨hd, hd₀⟩, .inl rfl, rfl, by simp⟩
  obtain ⟨cur, ⟨hposition, -⟩, hcluster, hzero, hbp, hstep⟩ := readStep_broken hg hf hbounce hbuf
    hsize hat rfl (by omega) hnext
    (hf.next (k + T) (by omega)) hne (by simp only; omega) (by omega)
  rw [if_neg (by omega)] at hstep
  refine loop_ok (I := fun s => s = ⟨d₀, c k, 0, host⟩ ∨ Late v c offset n (k + l) s)
    (C := fun _ => True) (Q := fun r => r.1 ≠ .ok n) ?_ ?_ _ _ (.inl rfl) (throughout_true _ _) h
  · rintro s s' (rfl | hs) - hs'
    · rw [hstep] at hs'
      cases hs'
      exact .inr ⟨hzero, by omega, .inr ⟨k + T + 1, by omega, hcluster, by omega⟩⟩
    · exact .inr ((readStep_late pages bufferAddress hf hcount (by omega) hlast hend hs).1 s' hs')
  · rintro s r (rfl | hs) - hs'
    · rw [hstep] at hs'
      cases hs'
    · exact (readStep_late pages bufferAddress hf hcount (by omega) hlast hend hs).2 r hs'

/-- Sectors are skipped : the first run goes on behind the cluster where it is broken off. -/
theorem readLoop_wrong (hd : v.bytesPerSector < d₀) :
    ∃ T < l, ∀ {host : BlockHost σ} {r : Except Unit ℕ × BlockHost σ},
      host.disk = v.markedDisk (c (k + T + 1)) →
      loop (v.readStep pages bufferAddress n) maxIterations ⟨d₀, c k, 0, host⟩ = .ok r →
      ¬ v.ReadsBytes c host.disk bufferAddress offset n r := by
  obtain ⟨T, hT, hne, hT'⟩ := exists_break hadj
  refine ⟨T, hT, fun {host r} hdisk h hr => ?_⟩
  have hpos := hg.bytesPerCluster_pos
  obtain ⟨so, d, hds, hdso, hso', -, hso, hstart⟩ := runStep_start n c k hg hd₀
  have hd' : d < d₀ := by
    obtain rfl | hlt := hso'
    · omega
    · omega
  obtain ⟨run, hloop, rfl, rfl, hlo, hhi, hbytes, h33⟩ := runLoop_beyond so hg hf hn hsize hl hcount hd₀
    hds hd' hT hne hT'
  rw [← loop_congr hstart] at hloop
  obtain ⟨h2, -, hvol⟩ := hf.onVolume k (by omega)
  obtain ⟨host', hread, -, hnew, -⟩ := readRun_spec n ⟨d₀, c k, 0, host⟩ run hg
    hbounce h2 hvol hso h33 hbytes (by simpa using hhi)
    (by omega) hbuf (fun _ => rfl)
  have hstep : v.readStep pages bufferAddress n ⟨d₀, c k, 0, host⟩ =
      v.nextRun n ⟨d₀, c k, 0, host⟩ run host' := by
    simp only [readStep, hloop, hread, Exec.ok_bind]
  have hexp : (T + 1) * v.bytesPerCluster = T * v.bytesPerCluster + v.bytesPerCluster := by ring
  obtain ⟨q, hq⟩ : ∃ q, (T + 1) * v.bytesPerCluster - d₀ = q := ⟨_, rfl⟩
  have hcluster := Adjacent.eq_add (c := c) (i := k) (k := k + T) (fun m hm hm' => by
    have := hT' (m - k) (by omega)
    rwa [show k + (m - k + 1) = m + 1 by omega, show k + (m - k) = m by omega] at this) T le_rfl
  -- The byte after the break comes from the cluster that follows on the disk.
  have hzero : host'.memory.bytes (bufferAddress + q) = 0 := by
    have haddr : v.clusterAddress (c k) + run.sectorOffset * v.bytesPerSector +
        run.dataOffsetBackup + q = v.clusterAddress (c (k + T) + 1) := by
      rw [hcluster, Nat.add_assoc (c k), clusterAddress_add h2]
      omega
    have := hnew q (by omega)
    rw [Nat.add_zero, haddr, hdisk, markedDisk, if_neg fun heq => ?_] at this
    · exact this
    · exact hne (clusterAddress_inj hg (by omega) (hf.onVolume _ (by omega)).1 heq).symm
  have hone : v.fileByte host.disk c (offset + q) = 1 := by
    have hp : offset + q = (k + T + 1) * v.bytesPerCluster := by
      rw [Nat.add_mul, Nat.add_mul]
      omega
    rw [fileByte, hp, Nat.mul_div_cancel _ hpos, Nat.mul_mod_left, Nat.add_zero, hdisk, markedDisk,
      if_pos rfl]
  have hqn : q < n := by omega
  have hfinal : r.2.memory.bytes (bufferAddress + q) = 0 := by
    refine loop_ok (I := fun s => s = ⟨d₀, c k, 0, host⟩ ∨ (s.dataOffset = 0 ∧ q < s.bufferPointer ∧
        s.host.memory.bytes (bufferAddress + q) = 0)) (C := fun _ => True)
      (Q := fun r => r.1 = .ok n → r.2.memory.bytes (bufferAddress + q) = 0) ?_ ?_ _ _ (.inl rfl)
      (throughout_true _ _) h hr.1
    · rintro s s' (rfl | ⟨hs, hbp, hbyte⟩) - hs'
      · rw [hstep] at hs'
        obtain ⟨_, ho⟩ | ho | ⟨x, _, _, ho⟩ := nextRun_cases hs'
        · cases ho
        · cases ho
        · cases ho
          exact .inr ⟨rfl, by simp only; omega, hzero⟩
      · obtain ⟨_, ho⟩ | ⟨run, host', -, hkeep, ⟨_, ho⟩ | ⟨x, _, _, ho⟩⟩ := readStep_later hf hs hs'
        · cases ho
        · cases ho
        · cases ho
          exact .inr ⟨rfl, by simp only; omega, by rw [hkeep q hbp, hbyte]⟩
    · rintro s r (rfl | ⟨hs, hbp, hbyte⟩) - hs' hok
      · rw [hstep] at hs'
        obtain ⟨_, ho⟩ | ho | ⟨x, _, _, ho⟩ := nextRun_cases hs'
        · cases ho
          exact hzero
        · cases ho
          exact hzero
        · cases ho
      · obtain ⟨_, ho⟩ | ⟨run, host', -, hkeep, ⟨_, ho⟩ | ⟨x, _, _, ho⟩⟩ := readStep_later hf hs hs'
        · cases ho
          cases hok
        · cases ho
          rw [hkeep q hbp, hbyte]
        · cases ho
  rw [hr.2 q hqn, hone] at hfinal
  cases hfinal

end

/-- A volume that is not `Readable` has a content that is not read. -/
theorem exists_misread (hg : v.Geometry) (hf : v.HasClusters file c count)
    (hbounce : BounceBuffers pages) {length : ℕ} (hbuf : bufferAddress + length ≤ 2 ^ 64)
    (hlen : 1 ≤ length) (hsum : offset + length < 2 ^ 64)
    (hread : ¬ v.Readable c offset (readLength file offset length)) :
    ∃ disk, ∀ (host : BlockHost σ) r, host.disk = disk →
      v.read pages file bufferAddress offset length host = .ok r →
        ¬ v.ReadsBytes c disk bufferAddress offset (readLength file offset length) r := by
  rw [Readable, not_or, not_or] at hread
  obtain ⟨hn, hadj, hend⟩ := hread
  obtain ⟨hle, hsize⟩ := readLength_le (Nat.pos_of_ne_zero hn)
  obtain ⟨l, hl, hlast, hcount⟩ := exists_span hg hf (Nat.pos_of_ne_zero hn) hsize
  rw [hlast] at hadj hend
  have hdiv := (Nat.div_add_mod' offset v.bytesPerCluster).symm
  have hmod := Nat.mod_lt offset hg.bytesPerCluster_pos
  have h32 := hf.size
  have hloop : ∀ {host : BlockHost σ} {r},
      v.read pages file bufferAddress offset length host = .ok r →
        loop (v.readStep pages bufferAddress (readLength file offset length)) maxIterations
          ⟨offset % v.bytesPerCluster, c (offset / v.bytesPerCluster), 0, host⟩ = .ok r := by
    intro host r h
    rw [read_eq hg hf hlen hsum (Nat.pos_of_ne_zero hn)] at h
    revert h
    cases loop (v.readStep pages bufferAddress (readLength file offset length)) maxIterations
      ⟨offset % v.bytesPerCluster, c (offset / v.bytesPerCluster), 0, host⟩ with
    | error t => simp [inside]
    | ok a => exact id
  by_cases hd : offset % v.bytesPerCluster ≤ v.bytesPerSector
  · refine ⟨fun _ => 0, fun host r _ hr hbytes => ?_⟩
    exact readLoop_misses hg hf hbounce (by omega) (by omega) (by omega) hdiv hmod hl hcount hadj hd
      (fun hc => hend ⟨hd, hc⟩) (hloop hr) hbytes.1
  · obtain ⟨T, -, hwrong⟩ := readLoop_wrong hg hf hbounce
      (show bufferAddress + _ ≤ 2 ^ 64 by omega) (by omega) (by omega) hdiv hmod hl hcount hadj (by omega)
    refine ⟨v.markedDisk (c (offset / v.bytesPerCluster + T + 1)), fun host r hdisk hr => ?_⟩
    have := hwrong hdisk (hloop hr)
    rwa [hdisk] at this

/-! ## Two volumes -/

/-- The read is inside the address space, and the volume is `Readable` for it. -/
def Placed (v : Fat32) (file : FileInfo) (c : ℕ → ℕ) (offset length : ℕ) : Prop :=
  offset + length < 2 ^ 64 ∧ v.Readable c offset (readLength file offset length)

/-- Whatever the two disks contain, as long as the files have the same bytes : the reads return the same
number of bytes, and the same bytes. -/
def PlacementIndependent (pages : Pages σ) (v w : Fat32) (file file' : FileInfo) (c c' : ℕ → ℕ)
    (bufferAddress offset length : ℕ) (host host' : BlockHost σ) : Prop :=
  ∀ disk disk', (∀ i < file.fileSize, v.fileByte disk c i = w.fileByte disk' c' i) →
    ∃ r r' m, v.read pages file bufferAddress offset length { host with disk := disk } = .ok r ∧
      w.read pages file' bufferAddress offset length { host' with disk := disk' } = .ok r' ∧
      r.1 = .ok m ∧ r'.1 = .ok m ∧
      ∀ j < m, r.2.memory.bytes (bufferAddress + j) = r'.2.memory.bytes (bufferAddress + j)

section

variable {w : Fat32} {file' : FileInfo} {c' : ℕ → ℕ} {count' length : ℕ}

theorem readLength_congr (hsize : file'.fileSize = file.fileSize) :
    readLength file' offset length = readLength file offset length := by
  rw [readLength, readLength, hsize]

/-- A read past the end of the address space does not return. -/
theorem lt_of_read {host : BlockHost σ} {r : Except Unit ℕ × BlockHost σ}
    (h : v.read pages file bufferAddress offset length host = .ok r) : offset + length < 2 ^ 64 := by
  simp only [read, clampLength, Exec.bind_eq_ok, checkedAdd_eq_ok] at h
  obtain ⟨_, ⟨_, ⟨hlt, -⟩, -⟩, -⟩ := h
  exact hlt

/-- The clusters of the file are all adjacent. -/
theorem placed_of_adjacent (hg : v.Geometry) (hf : v.HasClusters file c count)
    (hadj : Adjacent c 0 (count - 1)) (hsum : offset + length < 2 ^ 64) :
    v.Placed file c offset length := by
  refine ⟨hsum, ?_⟩
  by_cases hn : readLength file offset length = 0
  · exact .inl hn
  · obtain ⟨l, -, hlast, hcount⟩ :=
      exists_span hg hf (Nat.pos_of_ne_zero hn) (readLength_le (Nat.pos_of_ne_zero hn)).2
    refine .inr (.inl fun i hi hi' => hadj i (Nat.zero_le i) ?_)
    rw [hlast] at hi'
    omega

variable (hg : v.Geometry) (hg' : w.Geometry) (hf : v.HasClusters file c count)
  (hf' : w.HasClusters file' c' count') (hsize : file'.fileSize = file.fileSize)
  (hbounce : BounceBuffers pages) (hbuf : bufferAddress + length ≤ 2 ^ 64) (hlen : 1 ≤ length)

include hg hg' hf hf' hsize hbounce hbuf hlen

theorem placementIndependent_of_placed (hv : v.Placed file c offset length)
    (hw : w.Placed file' c' offset length) (host host' : BlockHost σ) :
    PlacementIndependent pages v w file file' c c' bufferAddress offset length host host' := by
  intro disk disk' hsame
  obtain ⟨r, hr, hok, hbytes⟩ :=
    read_content hg hf hbounce hbuf hlen hv.1 hv.2 { host with disk := disk }
  obtain ⟨r', hr', hok', hbytes'⟩ :=
    read_content hg' hf' hbounce hbuf hlen hw.1 hw.2 { host' with disk := disk' }
  rw [readLength_congr hsize] at hok' hbytes'
  refine ⟨r, r', _, hr, hr', hok, hok', fun j hj => ?_⟩
  rw [hbytes j hj, hbytes' j hj]
  refine hsame _ ?_
  have := (readLength_le (Nat.zero_lt_of_lt hj)).2
  omega

theorem placed_of_placementIndependent (hadj : Adjacent c 0 (count - 1)) (host host' : BlockHost σ)
    (h : PlacementIndependent pages v w file file' c c' bufferAddress offset length host host') :
    w.Placed file' c' offset length := by
  have hsum : offset + length < 2 ^ 64 := by
    obtain ⟨r, r', m, hr, -⟩ := h (fun _ => 0) (fun _ => 0) fun _ _ => rfl
    exact lt_of_read hr
  refine ⟨hsum, ?_⟩
  by_contra hnot
  obtain ⟨disk', hwrong⟩ := exists_misread hg' hf' hbounce hbuf hlen hsum hnot
  -- The same bytes in adjacent clusters.
  obtain ⟨disk, hdisk⟩ : ∃ disk, ∀ i < file.fileSize,
      v.fileByte disk c i = w.fileByte disk' c' i := by
    refine ⟨fun a => w.fileByte disk' c' (a - v.clusterAddress (c 0)), fun i hi => ?_⟩
    have hlt : i / v.bytesPerCluster < count := by
      rw [Nat.div_lt_iff_lt_mul hg.bytesPerCluster_pos]
      exact hi.trans_le hf.long
    have hcount : 0 < count := Nat.zero_lt_of_lt hlt
    have := fileByte_adjacent hg (fun a => w.fileByte disk' c' (a - v.clusterAddress (c 0))) hadj
      (hf.onVolume 0 hcount).1 (x := i) (by omega)
    rw [Nat.zero_mul, Nat.zero_add] at this
    rw [this, Nat.add_sub_cancel_left]
  obtain ⟨r, r', m, hr, hr', hok, hok', hsame⟩ := h disk disk' hdisk
  have hplaced := placed_of_adjacent hg hf hadj hsum
  obtain ⟨r₀, hr₀, hok₀, hbytes₀⟩ :=
    read_content hg hf hbounce hbuf hlen hsum hplaced.2 { host with disk := disk }
  obtain rfl : r = r₀ := Except.ok.inj (hr.symm.trans hr₀)
  obtain rfl : m = readLength file offset length := Except.ok.inj (hok.symm.trans hok₀)
  refine hwrong { host' with disk := disk' } r' rfl hr' ?_
  rw [readLength_congr hsize]
  refine ⟨hok', fun j hj => ?_⟩
  have hle := (readLength_le (Nat.zero_lt_of_lt hj)).2
  rw [← hsame j hj, hbytes₀ j hj, hdisk _ (by omega)]

end

/-- `Fat32::read` is independent of the placement of clusters on volumes that are placed well. If the
clusters of one volume are all adjacent, then only with such volumes. -/
theorem read_placementIndependent {w : Fat32} {file' : FileInfo} {c' : ℕ → ℕ} {count' length : ℕ}
    (hg : v.Geometry) (hg' : w.Geometry) (hf : v.HasClusters file c count)
    (hf' : w.HasClusters file' c' count') (hsize : file'.fileSize = file.fileSize)
    (hbounce : BounceBuffers pages) (hbuf : bufferAddress + length ≤ 2 ^ 64) (hlen : 1 ≤ length)
    (host host' : BlockHost σ) :
    (v.Placed file c offset length → w.Placed file' c' offset length →
      PlacementIndependent pages v w file file' c c' bufferAddress offset length host host') ∧
    (Adjacent c 0 (count - 1) →
      (PlacementIndependent pages v w file file' c c' bufferAddress offset length host host' ↔
        w.Placed file' c' offset length)) := by
  refine ⟨fun hv hw => placementIndependent_of_placed hg hg' hf hf' hsize hbounce hbuf hlen hv hw
    host host', fun hadj => ⟨fun h => ?_, fun hw => ?_⟩⟩
  · exact placed_of_placementIndependent hg hg' hf hf' hsize hbounce hbuf hlen hadj host host' h
  · have hv := placed_of_adjacent hg hf hadj hw.1
    exact placementIndependent_of_placed hg hg' hf hf' hsize hbounce hbuf hlen hv hw host host'

/-- A read that ends with a broken run. -/
theorem read_placementIndependent_step :
    PlacementIndependent onePage (stepVolume 1 4) (stepVolume 2 6) ⟨2, 1536⟩ ⟨2, 1536⟩
      (fun i => 1 * i + 2) (fun i => 2 * i + 2) 0x40000000 0 1024 blankHost blankHost := by
  refine ((read_placementIndependent (stepVolume_geometry 1 4) (stepVolume_geometry 2 6)
    (stepVolume_hasClusters 1 3 (by decide) (by decide) (by decide))
    (stepVolume_hasClusters 2 3 (by decide) (by decide) (by decide)) rfl
    bounceBuffers_onePage (by decide) (by decide) blankHost blankHost).2 ?_).mpr ⟨by decide, ?_⟩
  · intro i _ _
    simp only
    omega
  · exact .inr (.inr ⟨by decide, by decide, 6, by decide, by decide⟩)

/-- A file of two clusters. On the second volume they are not adjacent, and the read fails. -/
theorem read_not_placementIndependent :
    (stepVolume 1 3).HasClusters ⟨2, 1024⟩ (fun i => 1 * i + 2) 2 ∧
      (stepVolume 2 4).HasClusters ⟨2, 1024⟩ (fun i => 2 * i + 2) 2 ∧
      BounceBuffers onePage ∧
      ¬ PlacementIndependent onePage (stepVolume 1 3) (stepVolume 2 4) ⟨2, 1024⟩ ⟨2, 1024⟩
        (fun i => 1 * i + 2) (fun i => 2 * i + 2) 0x40000000 0 1024 blankHost blankHost := by
  have hf := stepVolume_hasClusters 1 2 (by decide) (by decide) (by decide)
  have hf' := stepVolume_hasClusters 2 2 (by decide) (by decide) (by decide)
  refine ⟨hf, hf', bounceBuffers_onePage, fun h => ?_⟩
  obtain ⟨-, hread⟩ := placed_of_placementIndependent (stepVolume_geometry 1 3)
    (stepVolume_geometry 2 4) hf hf' rfl bounceBuffers_onePage (by decide) (by decide)
    (fun i _ _ => by omega) blankHost blankHost h
  obtain hn | hadj | ⟨-, -, x, hx, -⟩ := hread
  · exact absurd hn (by decide)
  · exact absurd (hadj 0 (by decide) (by decide)) (by decide)
  · rw [show (stepVolume 2 4).getNextCluster _ = none by decide] at hx
    cases hx

end Fat32

end MiniVisor
