import MiniVisor.Fat32Termination

/-!
# The clusters of other files

The first transfer of a write starts behind the sectors that are skipped, and its size is counted from the
begin of the cluster. So it can end in the cluster that follows the last one of the run on the disk, and
that need not be one of the file. `write_foreign_iff` says which clusters no write changes : two sectors
have to be skipped, so clusters of two sectors are safe, and so is a cluster that does not follow on the
disk one behind which the file goes on.
-/

namespace MiniVisor

open Machine

namespace Fat32

variable {v : Fat32} {σ : Type} {file : FileInfo} {c : ℕ → ℕ} {bufferAddress count offset n x : ℕ}

/-- The disk is the same at the cluster. -/
def SameCluster (v : Fat32) (x : ℕ) (host host' : BlockHost σ) : Prop :=
  ∀ p < v.bytesPerCluster, host'.disk (v.clusterAddress x + p) = host.disk (v.clusterAddress x + p)

/-- No write to the file changes the cluster. -/
def Spares (v : Fat32) (σ : Type) (file : FileInfo) (x : ℕ) : Prop :=
  ∀ (bufferAddress offset length : ℕ) (host : BlockHost σ) r,
    v.write file bufferAddress offset length host = .ok r → v.SameCluster x host r.2

/-! ## One transfer -/

/-- A sector that begins in front of the end of the last one begins in front of the `n`-th byte. -/
theorem lt_of_lt_roundUp (hn : 0 < n) {m : ℕ} (hdvd : v.bytesPerSector ∣ m) (hm : m < v.roundUp n) :
    m < n := by
  obtain ⟨k, rfl⟩ := hdvd
  rw [roundUp, max_eq_left hn, Nat.mul_comm v.bytesPerSector k] at hm
  have hle := Nat.mul_le_mul_right v.bytesPerSector (Nat.lt_one_add_iff.mp (Nat.lt_of_mul_lt_mul_right hm))
  have := Nat.div_mul_le_self (n - 1) v.bytesPerSector
  rw [Nat.mul_comm]
  omega

/-- A transfer from `s` on reaches a cluster that is none of the file's only if sectors are skipped, and it
is behind one of the file's that is written to its end. -/
theorem extent_foreign (hg : v.Geometry) (hc : v.Chain file c count) (h2 : 2 ≤ x)
    (hx : ∀ i < count, x ≠ c i) (hn : 0 < n) {least i s p : ℕ} {e : Extent} (hi : i < count)
    (he : v.extent n 0 least (c i) = some e) (hdvd : v.bytesPerSector ∣ s) (hs : s < v.bytesPerCluster)
    (hp : p < v.bytesPerCluster) (hlo : v.clusterAddress (c i) + s ≤ v.clusterAddress x + p)
    (hhi : v.clusterAddress x + p < v.clusterAddress (c i) + s + e.size) :
    0 < s ∧ ∃ j, (j + 1) * v.bytesPerCluster < i * v.bytesPerCluster + s + n ∧ x = c j + 1 := by
  have hpos := hg.bytesPerCluster_pos
  have hci := (hc.onVolume i hi).1
  obtain ⟨w, hw⟩ := Nat.exists_eq_add_of_le (show v.clusterAddress (c i) ≤ v.clusterAddress x + p by omega)
  have hdiv := Nat.div_add_mod' w v.bytesPerCluster
  -- the byte is in the cluster `w / v.bytesPerCluster` behind the first one
  obtain ⟨hxw, -⟩ := clusterAddress_add_inj h2 (hci.trans (Nat.le_add_right _ _)) hp (Nat.mod_lt w hpos)
    (show v.clusterAddress x + p = v.clusterAddress
      (c i + w / v.bytesPerCluster) + w % v.bytesPerCluster by
      rw [clusterAddress_add hci]
      omega)
  have hfar : ∀ {u}, Adjacent c i (i + u) → i + u < count → u < w / v.bytesPerCluster := by
    intro u hadj hu
    by_contra hle
    refine hx (i + w / v.bytesPerCluster) (by omega) ?_
    rw [hadj.eq_add _ (by omega), hxw]
  have hnext : ∀ {u}, Adjacent c i (i + u) → i + u < count → s + e.size ≤ (u + 2) * v.bytesPerCluster →
      (u + 1) * v.bytesPerCluster ≤ w ∧ x = c (i + u) + 1 := by
    intro u hadj hu hsize
    have hlt := hfar hadj hu
    have hle : w / v.bytesPerCluster < u + 2 := (Nat.div_lt_iff_lt_mul hpos).mpr (by omega)
    have heq : w / v.bytesPerCluster = u + 1 := by omega
    refine ⟨(Nat.le_div_iff_mul_le hpos).mp heq.ge, ?_⟩
    rw [hxw, heq, hadj.eq_add _ le_rfl, Nat.add_assoc]
  obtain ⟨hadj, hT, rfl⟩ | ⟨u, hu, hadj, hlast, -, rfl⟩ := extent_chain hc hi he
  · -- the whole length : its last sector is the one in which it ends
    set T := (n - 1) / v.bytesPerCluster with hTdef
    have hTB : n ≤ (T + 1) * v.bytesPerCluster := by
      have := Nat.lt_div_mul_add hpos (a := n - 1)
      rw [← hTdef] at this
      rw [Nat.succ_mul]
      omega
    have hwhole : v.bytesPerSector ∣ v.bytesPerCluster := Dvd.intro_left _ rfl
    have hcluster : v.bytesPerSector ∣ (T + 1) * v.bytesPerCluster := hwhole.mul_left _
    have hround : v.roundUp n ≤ (T + 1) * v.bytesPerCluster := by
      by_contra hlt
      have := lt_of_lt_roundUp hn hcluster (by omega)
      omega
    have hexp : (T + 2) * v.bytesPerCluster = (T + 1) * v.bytesPerCluster + v.bytesPerCluster := by ring
    obtain ⟨hw', hxj⟩ := hnext hadj hT (by simp only; omega)
    simp only at hhi
    have hlt := lt_of_lt_roundUp hn (Nat.dvd_sub hcluster hdvd)
      (show (T + 1) * v.bytesPerCluster - s < v.roundUp n by omega)
    refine ⟨by omega, i + T, ?_, hxj⟩
    rw [show i + T + 1 = i + (T + 1) by omega, Nat.add_mul]
    omega
  · have hexp : (u + 2) * v.bytesPerCluster = (u + 1) * v.bytesPerCluster + v.bytesPerCluster := by ring
    obtain ⟨hw', hxj⟩ := hnext hadj (by omega) (by simp only; omega)
    simp only at hhi
    have hmono : (u + 1) * v.bytesPerCluster ≤ (n - 1) / v.bytesPerCluster * v.bytesPerCluster :=
      Nat.mul_le_mul_right _ hu
    have hT := Nat.div_mul_le_self (n - 1) v.bytesPerCluster
    refine ⟨by omega, i + u, ?_, hxj⟩
    rw [show i + u + 1 = i + (u + 1) by omega, Nat.add_mul]
    omega

/-- Sectors are only skipped if there are two of them or more. -/
theorem skipOffset_skips (hg : v.Geometry) {dataOffset : ℕ} (hd : dataOffset < v.bytesPerCluster)
    (hzero : (v.skipOffset dataOffset).2 = 0) (hpos : 0 < dataOffset) : 2 < v.sectorsPerCluster := by
  have hsum := skipOffset_sectors hg hd hzero
  rw [skipOffset] at hsum hzero
  split_ifs at hsum hzero with hlt
  · dsimp only at hsum
    have htwo : 1 < dataOffset / v.bytesPerSector := by
      refine Nat.lt_of_mul_lt_mul_right (a := v.bytesPerSector) ?_
      omega
    have hle : dataOffset / v.bytesPerSector < v.sectorsPerCluster := by
      refine Nat.lt_of_mul_lt_mul_right (a := v.bytesPerSector) ?_
      rwa [hsum, ← bytesPerCluster]
    omega
  · dsimp only at hzero
    omega

/-! ## The whole write -/

section

variable (hg : v.Geometry) (hc : v.Chain file c count) (h2 : 2 ≤ x) (hx : ∀ i < count, x ≠ c i)

include hg hc h2 hx

/-- One iteration : no transfer reaches the cluster. -/
theorem writeStep_sameCluster (hn : 0 < n) (hend : offset + n ≤ file.fileSize)
    (h : v.sectorsPerCluster ≤ 2 ∨ ∀ i, (i + 1) * v.bytesPerCluster < file.fileSize → x ≠ c i + 1)
    {host : BlockHost σ} {cur : Cursor σ} {o : Iter (Cursor σ) (Except Unit ℕ × BlockHost σ)}
    (hcur : AtWrite v c count offset n host cur) (hsame : v.SameCluster x host cur.host)
    (ho : v.writeStep bufferAddress n cur = .ok o) :
    (∃ r, o = .done r ∧ v.SameCluster x host r.2) ∨
      ∃ cur', o = .next cur' ∧ AtWrite v c count offset n host cur' ∧ v.SameCluster x host cur'.host := by
  have hpos := hg.bytesPerCluster_pos
  have hmod := Nat.mod_lt offset hpos
  have hlong := hc.long
  have hkcount : offset / v.bytesPerCluster < count := (Nat.div_lt_iff_lt_mul hpos).mpr (by omega)
  obtain ⟨i, hi, hcluster, hdata, hfirst⟩ : ∃ i < count, cur.cluster = c i ∧
      cur.dataOffset < v.bytesPerCluster ∧
      (cur.dataOffset = 0 ∨ i * v.bytesPerCluster + cur.dataOffset = offset) := by
    obtain rfl | ⟨hd, i, -, hi, hcluster, -⟩ := hcur
    · exact ⟨_, hkcount, rfl, hmod, .inr (Nat.div_add_mod' _ _)⟩
    · exact ⟨i, hi, hcluster, by omega, .inl hd⟩
  obtain ⟨-, rfl⟩ | ⟨hskip, e, host', he, hwritten, -, rfl⟩ := writeStep_inv hg hdata ho
  · exact .inl ⟨_, rfl, hsame⟩
  have hsectors := skipOffset_sectors hg hdata hskip
  have hsame' : v.SameCluster x host host' := by
    intro p hp
    rw [hwritten.disk, hsectors, hcluster, if_neg, hsame p hp]
    rintro ⟨hlo, hhi⟩
    obtain ⟨hskips, j, hj, hxj⟩ := extent_foreign hg hc h2 hx hn hi (hcluster ▸ he)
      ⟨_, by rw [Nat.mul_comm]; exact hsectors.symm⟩ hdata hp hlo hhi
    obtain hsmall | hfar := h
    · exact absurd (skipOffset_skips hg hdata hskip hskips) (by omega)
    · exact hfar j (by omega) hxj
  obtain ⟨r, hr⟩ | ⟨cur', hnext, hhost, hat⟩ := follow_atWrite hc hkcount hcur he
  · exact .inl ⟨_, hr, hsame'⟩
  · exact .inr ⟨cur', hnext, hat, by rwa [hhost]⟩

/-- All transfers of a write leave the cluster as it is. -/
theorem write_sameCluster
    (h : v.sectorsPerCluster ≤ 2 ∨ ∀ i, (i + 1) * v.bytesPerCluster < file.fileSize → x ≠ c i + 1) :
    v.Spares σ file x := by
  intro bufferAddress offset length host r hr
  obtain hzero | hn := Nat.eq_zero_or_pos (readLength file offset length)
  · rw [write_empty hg hzero hr]
    exact fun _ _ => rfl
  have hlen : 1 ≤ length := hn.trans_le (readLength_le hn).1
  have hend := (readLength_le hn).2
  refine loop_ok (I := fun cur => AtWrite v c count offset (readLength file offset length) host cur ∧
      v.SameCluster x host cur.host) (C := fun _ => True) (Q := fun r => v.SameCluster x host r.2)
    ?_ ?_ _ _ ⟨.inl rfl, fun _ _ => rfl⟩ (throughout_true _ _) (write_loop hg hc hlen hn hr)
  · rintro cur cur' ⟨hcur, hsame⟩ - hs
    obtain ⟨r, ho, -⟩ | ⟨cur'', ho, hcur', hsame'⟩ :=
      writeStep_sameCluster hg hc h2 hx hn hend h hcur hsame hs
    · cases ho
    · cases ho
      exact ⟨hcur', hsame'⟩
  · rintro cur r ⟨hcur, hsame⟩ - hs
    obtain ⟨r', ho, hr⟩ | ⟨cur'', ho, -⟩ := writeStep_sameCluster hg hc h2 hx hn hend h hcur hsame hs
    · cases ho
      exact hr
    · cases ho

omit h2 hx

/-- Behind two sectors that are skipped, a write that ends with the first byte of the next cluster of the
file ends on the disk in the sector behind this one. -/
theorem write_spills (p : σ) (hthree : 2 < v.sectorsPerCluster) {i : ℕ}
    (hi : (i + 1) * v.bytesPerCluster < file.fileSize) :
    ∃ r, v.write file 0 (i * v.bytesPerCluster + 2 * v.bytesPerSector)
        (v.bytesPerCluster - 2 * v.bytesPerSector + 1) (markedHost p) = .ok r ∧
      r.2.disk (v.clusterAddress (c i + 1)) = 1#8 := by
  have hpos := hg.bytesPerCluster_pos
  have hspos := hg.sectorPos
  have h32 := hc.size
  have hlong := hc.long
  have hexp : (i + 1) * v.bytesPerCluster = i * v.bytesPerCluster + v.bytesPerCluster := by ring
  have hicount : i < count := by
    refine Nat.lt_of_mul_lt_mul_right (a := v.bytesPerCluster) ?_
    omega
  have hthird : 3 * v.bytesPerSector ≤ v.bytesPerCluster := Nat.mul_le_mul_right _ hthree
  set m := v.bytesPerCluster - 2 * v.bytesPerSector + 1 with hm
  have hread : readLength file (i * v.bytesPerCluster + 2 * v.bytesPerSector) m = m := by
    rw [readLength]
    omega
  have hdiv : (i * v.bytesPerCluster + 2 * v.bytesPerSector) / v.bytesPerCluster = i := by
    rw [Nat.mul_comm, Nat.mul_add_div hpos, Nat.div_eq_of_lt (by omega), Nat.add_zero]
  have hmod : (i * v.bytesPerCluster + 2 * v.bytesPerSector) % v.bytesPerCluster =
      2 * v.bytesPerSector := by
    rw [Nat.mul_comm, Nat.mul_add_mod, Nat.mod_eq_of_lt (by omega)]
  have hskip : v.skipOffset (2 * v.bytesPerSector) = (2, 0) := by
    rw [skipOffset, if_pos (by omega), Nat.mul_div_cancel _ hspos, Nat.mul_mod_left]
  have he : v.extent m 0 v.bytesPerSector (c i) = some ⟨v.roundUp m, m, c i⟩ := by
    rw [extent, Nat.div_eq_of_lt (by omega), extentFrom, if_neg (by omega), Nat.add_zero]
  have hsize : v.bytesPerCluster - 2 * v.bytesPerSector < v.roundUp m := by
    have := extent_bytes hg (Nat.zero_le _) he
    simp only at this
    omega
  let cur : Cursor σ := ⟨2 * v.bytesPerSector, c i, 0, markedHost p⟩
  have hcur : cur.dataOffset < v.bytesPerCluster := by
    simp only [cur]
    omega
  obtain ⟨o, ho⟩ : (v.writeStep 0 m cur).Returns :=
    writeStep_returns hg (by omega) (by omega) (by omega) hcur (Nat.zero_le _) (hc.onVolume i hicount)
  obtain ⟨hno, -⟩ | ⟨-, e, host', he', hwritten, -, rfl⟩ := writeStep_inv hg hcur ho
  · simp only [cur, hskip, he] at hno
    simp at hno
  · obtain rfl := Option.some.inj (he.symm.trans he')
    rw [follow, if_pos (Nat.zero_add m).symm] at ho
    refine ⟨(.ok m, host'), ?_, ?_⟩
    · rw [write_eq_readLength hg hc.toHasClusters (by omega) (by omega) (by omega), hread, hdiv, hmod,
        loop_done ho (by decide), inside]
    · obtain ⟨-, -, hones⟩ := hwritten.ones (rfl : Ones (markedHost p))
      refine hones _ ?_ ?_
      · simp only [cur, hskip, clusterAddress_add (hc.onVolume i hicount).1]
        omega
      · simp only [cur, hskip, clusterAddress_add (hc.onVolume i hicount).1]
        omega

end

/-- No write to a file changes the cluster `x`, which is none of its clusters, exactly if a cluster has at
most two sectors, or `x` does not follow on the disk a cluster behind which the file goes on. -/
theorem write_foreign_iff [Inhabited σ] (hg : v.Geometry) (hc : v.Chain file c count) (h2 : 2 ≤ x)
    (hx : ∀ i < count, x ≠ c i) :
    v.Spares σ file x ↔
      v.sectorsPerCluster ≤ 2 ∨ ∀ i, (i + 1) * v.bytesPerCluster < file.fileSize → x ≠ c i + 1 := by
  refine ⟨fun hspares => ?_, write_sameCluster hg hc h2 hx⟩
  by_contra hnot
  push Not at hnot
  obtain ⟨hthree, i, hi, rfl⟩ := hnot
  obtain ⟨r, hr, hone⟩ := write_spills hg hc (default : σ) hthree hi
  have hzero := hspares _ _ _ _ r hr 0 hg.bytesPerCluster_pos
  rw [Nat.add_zero, hone] at hzero
  exact absurd hzero (by simp [markedHost])

/-- Clusters of four sectors, and a file in the clusters 2 and 4. -/
def fourSectors : Fat32 :=
  { stepVolume 2 4 with sectorsPerCluster := 4 }

theorem fourSectors_geometry : fourSectors.Geometry := by
  constructor <;> simp [fourSectors, stepVolume]

theorem fourSectors_chain : fourSectors.Chain ⟨2, 4096⟩ (fun i => 2 * i + 2) 2 := by
  refine ⟨⟨rfl, fun i hi => ?_, by omega, by decide, by decide, fun i hi => ?_⟩, rfl⟩
  · obtain rfl : i = 0 := by omega
    rfl
  · simp only [fourSectors, stepVolume]
    omega

/-- The cluster 3 is changed by a write to the file, and the cluster 5 is not. -/
theorem write_foreign_iff_between :
    ¬fourSectors.Spares Unit ⟨2, 4096⟩ 3 ∧ fourSectors.Spares Unit ⟨2, 4096⟩ 5 := by
  have hB : fourSectors.bytesPerCluster = 2048 := rfl
  constructor
  · rw [write_foreign_iff fourSectors_geometry fourSectors_chain (by decide) (by omega)]
    rintro (h | h)
    · exact absurd h (by decide)
    · exact h 0 (by decide) rfl
  · rw [write_foreign_iff fourSectors_geometry fourSectors_chain (by decide) (by omega)]
    refine .inr fun i hi => ?_
    rw [hB] at hi
    simp only at hi
    omega

end Fat32

end MiniVisor
