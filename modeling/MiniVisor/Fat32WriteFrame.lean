import MiniVisor.Fat32Extent
import MiniVisor.Fat32Write

/-!
# What `Fat32::write` changes on the disk

A write transfers whole sectors. It starts inside the first cluster if sectors are skipped there, but its
size is counted from the begin of that cluster; so a run of clusters that is broken off is written beyond
its end. Every further transfer asks for the full length again.

`WriteFits` says in terms of the clusters when all transfers stay in the part of the file that is to be
written. Whether a byte is changed depends on what is written, so the result is about all contents of the
memory and the disk.
-/

namespace MiniVisor

open Machine

namespace Fat32

variable {v : Fat32} {σ : Type} {file : FileInfo} {c : ℕ → ℕ} {bufferAddress count offset n : ℕ}

/-! ## One transfer -/

/-- Sectors are written, as they are whole blocks. -/
theorem writeSectors_inv (hg : v.Geometry) {buffer sector sectors : ℕ} {h : BlockHost σ}
    {o : Except Unit Unit × BlockHost σ} (ho : v.writeSectors buffer sector sectors h = .ok o) :
    o.1 = .ok () ∧ o.2.memory = h.memory.touch buffer (sectors * v.bytesPerSector) false ∧
      ∀ a, o.2.disk a = if v.baseLba * v.lbaSize + sector * v.bytesPerSector ≤ a ∧
        a < v.baseLba * v.lbaSize + sector * v.bytesPerSector + sectors * v.bytesPerSector then
        h.memory.bytes (buffer + (a - (v.baseLba * v.lbaSize + sector * v.bytesPerSector)))
      else h.disk a := by
  simp only [writeSectors, sectorAddress, Exec.bind_eq_ok, checkedMul_eq_ok, checkedAdd_eq_ok] at ho
  obtain ⟨address, ⟨base, ⟨-, rfl⟩, rest, ⟨-, rfl⟩, -, rfl⟩, length, ⟨-, rfl⟩, ho⟩ := ho
  have haddress : 512 ∣ v.baseLba * v.lbaSize + sector * v.bytesPerSector := by
    rw [hg.lba]
    exact Nat.dvd_add (Nat.dvd_mul_left _ _) (hg.sector.mul_left _)
  have hlength : 512 ∣ sectors * v.bytesPerSector := hg.sector.mul_left _
  rw [← Except.ok.inj ho, BlockHost.blkWrite, if_neg]
  · exact ⟨rfl, rfl, fun a => rfl⟩
  · rw [Nat.and_two_pow_sub_one_eq_mod, Nat.and_two_pow_sub_one_eq_mod]
    omega

/-- What a transfer of the extent `e` does, behind the first `so` sectors of its cluster. -/
structure Written (v : Fat32) (bufferAddress so : ℕ) (e : Extent) (cur : Cursor σ)
    (host : BlockHost σ) : Prop where
  memory : host.memory.bytes = cur.host.memory.bytes
  disk : ∀ a, host.disk a = if v.clusterAddress cur.cluster + so * v.bytesPerSector ≤ a ∧
      a < v.clusterAddress cur.cluster + so * v.bytesPerSector + e.size then
      cur.host.memory.bytes (bufferAddress + cur.bufferPointer +
        (a - (v.clusterAddress cur.cluster + so * v.bytesPerSector)))
    else cur.host.disk a

/-- The offset inside of a sector stays until the transfer. -/
theorem runStep_backup {run : Run} (hle : run.dataOffset ≤ v.bytesPerSector)
    {o : Iter Run (Except Unit Run)} (h : v.runStep n run = .ok o) :
    o = .done (.error ()) ∨
      (∃ run', o = .done (.ok run') ∧ run'.dataOffsetBackup = run.dataOffsetBackup) ∨
      ∃ run', o = .next run' ∧ run'.dataOffsetBackup = run.dataOffsetBackup ∧
        run'.dataOffset ≤ v.bytesPerSector := by
  have hskip : v.skipSectors run = .ok run := by
    rw [skipSectors, if_neg (by omega)]
    rfl
  rw [runStep, hskip, Exec.ok_bind] at h
  simp only [Exec.bind_eq_ok] at h
  obtain ⟨left, -, left', -, h⟩ := h
  split_ifs at h
  · simp only [Exec.bind_eq_ok] at h
    obtain ⟨q, -, more, -, sectors, -, rest, -, bytes, -, h⟩ := h
    exact .inr (.inl ⟨_, (Except.ok.inj h).symm, rfl⟩)
  · simp only [Exec.bind_eq_ok] at h
    obtain ⟨sectors, -, whole, -, bytes, -, h⟩ := h
    cases hy : v.getNextCluster run.cluster with
    | none =>
      rw [hy] at h
      exact .inl (Except.ok.inj h).symm
    | some y =>
      rw [hy] at h
      simp only [Exec.bind_eq_ok] at h
      obtain ⟨adjacent, -, h⟩ := h
      split_ifs at h
      · exact .inr (.inl ⟨_, (Except.ok.inj h).symm, rfl⟩)
      · exact .inr (.inr ⟨_, (Except.ok.inj h).symm, rfl, Nat.zero_le _⟩)

/-- An iteration of the inner loop refuses less than a sector, or is that of `Fat32::read`. -/
theorem writeRunStep_inv {run : Run} {o : Iter Run (Except Unit Run)}
    (h : v.writeRunStep n run = .ok o) :
    run.bytes ≤ n ∧ ((n - run.bytes < v.bytesPerSector ∧ o = .done (.error ())) ∨
      (v.bytesPerSector ≤ n - run.bytes ∧ v.runStep n run = .ok o)) := by
  simp only [writeRunStep, Exec.bind_eq_ok, checkedSub_eq_ok] at h
  obtain ⟨left, ⟨hle, rfl⟩, h⟩ := h
  refine ⟨hle, ?_⟩
  split_ifs at h with hless
  · exact .inl ⟨hless, (Except.ok.inj h).symm⟩
  · exact .inr ⟨by omega, h⟩

theorem writeLoop_backup {run : Run} (hle : run.dataOffset ≤ v.bytesPerSector) {run' : Run} {m : ℕ}
    (h : loop (v.writeRunStep n) m run = .ok (.ok run')) :
    run'.dataOffsetBackup = run.dataOffsetBackup := by
  refine loop_ok (I := fun s => s.dataOffset ≤ v.bytesPerSector ∧
      s.dataOffsetBackup = run.dataOffsetBackup) (C := fun _ => True)
    (Q := fun r => ∀ run', r = .ok run' → run'.dataOffsetBackup = run.dataOffsetBackup) ?_ ?_ _ _
    ⟨hle, rfl⟩ (throughout_true _ _) h run' rfl
  · rintro s s' ⟨hs, hbackup⟩ - ho
    obtain ⟨-, ⟨-, ho⟩ | ⟨-, ho⟩⟩ := writeRunStep_inv ho
    · cases ho
    · obtain ho | ⟨run', ho, -⟩ | ⟨run', ho, heq, hle'⟩ := runStep_backup hs ho
      · cases ho
      · cases ho
      · cases ho
        exact ⟨hle', heq.trans hbackup⟩
  · rintro s r ⟨hs, hbackup⟩ - ho run' rfl
    obtain ⟨-, ⟨-, ho⟩ | ⟨-, ho⟩⟩ := writeRunStep_inv ho
    · cases ho
    · obtain ho | ⟨run', ho, heq⟩ | ⟨run', ho, -⟩ := runStep_backup hs ho
      · cases ho
      · cases ho
        exact heq.trans hbackup
      · cases ho

/-- Without an offset inside of the sector the inner loop finds the extent. -/
theorem writeLoop_extent (hg : v.Geometry) {so x : ℕ} {r : Except Unit Run}
    (h : loop (v.writeRunStep n) maxIterations (v.runAt so 0 0 x) = .ok r) :
    v.FindsExtent so 0 (v.extent n 0 v.bytesPerSector x) r := by
  refine runLoop_extent v.bytesPerSector hg (Nat.zero_le _) (fun t y o ht ho => ?_) h
  have hbytes : (v.runAt so 0 t y).bytes = t * v.bytesPerCluster := rfl
  have hsb : v.bytesPerSector ≤ v.bytesPerCluster := Nat.le_mul_of_pos_left _ hg.clusterPos
  have hdiv := Nat.div_mul_le_self (n + 0 - 1) v.bytesPerCluster
  obtain ⟨hle, ⟨hless, rfl⟩ | ⟨hmore, ho⟩⟩ := writeRunStep_inv ho
  · rw [hbytes] at hle hless
    refine .inl ⟨?_, by simpa using hless, rfl⟩
    by_contra hne
    have : (t + 1) * v.bytesPerCluster ≤ (n + 0 - 1) / v.bytesPerCluster * v.bytesPerCluster :=
      Nat.mul_le_mul_right _ (by omega)
    rw [Nat.add_mul] at this
    omega
  · rw [hbytes] at hmore
    exact .inr ⟨fun h => by omega, ho⟩

/-- The first step takes the whole sectors off the offset. -/
theorem writeRunStep_skipOffset (hg : v.Geometry) (n x : ℕ) {dataOffset : ℕ}
    (hd : dataOffset < v.bytesPerCluster) :
    v.writeRunStep n (.start x dataOffset) =
      v.writeRunStep n (v.runAt (v.skipOffset dataOffset).1 (v.skipOffset dataOffset).2 0 x) := by
  have hbytes : (v.runAt (v.skipOffset dataOffset).1 (v.skipOffset dataOffset).2 0 x).bytes = 0 := by
    simp [runAt, runAfter]
  rw [writeRunStep, writeRunStep, (runStep_skipOffset hg n x hd).1, hbytes, Run.start]

/-- The inner loop of an iteration has found the extent that is transferred, unless the transfer
would start inside of a sector. -/
theorem writeRun_found (hg : v.Geometry) {cur : Cursor σ} (hcur : cur.dataOffset < v.bytesPerCluster)
    {r : Except Unit Run}
    (h : loop (v.writeRunStep n) maxIterations (.start cur.cluster cur.dataOffset) = .ok r) :
    (v.skipOffset cur.dataOffset).2 ≠ 0 ∧ (∀ run, r = .ok run → run.dataOffsetBackup ≠ 0) ∨
      (v.skipOffset cur.dataOffset).2 = 0 ∧ v.FindsExtent (v.skipOffset cur.dataOffset).1 0
        (v.extent n 0 v.bytesPerSector cur.cluster) r := by
  obtain ⟨-, hd, -⟩ := runStep_skipOffset hg n cur.cluster hcur
  rw [loop_congr (writeRunStep_skipOffset hg n cur.cluster hcur)] at h
  by_cases hzero : (v.skipOffset cur.dataOffset).2 = 0
  · rw [hzero] at h
    exact .inr ⟨hzero, writeLoop_extent hg h⟩
  · refine .inl ⟨hzero, ?_⟩
    rintro run rfl
    have hle : (v.runAt (v.skipOffset cur.dataOffset).1 (v.skipOffset cur.dataOffset).2 0
        cur.cluster).dataOffset ≤ v.bytesPerSector := hd
    rw [writeLoop_backup hle h]
    exact hzero

/-- What an iteration of the outer loop can do. -/
theorem writeStep_inv (hg : v.Geometry) {cur : Cursor σ} (hcur : cur.dataOffset < v.bytesPerCluster)
    {o : Iter (Cursor σ) (Except Unit ℕ × BlockHost σ)}
    (h : v.writeStep bufferAddress n cur = .ok o) :
    (((v.skipOffset cur.dataOffset).2 ≠ 0 ∨ v.extent n 0 v.bytesPerSector cur.cluster = none) ∧
      o = .done (.error (), cur.host)) ∨
    ((v.skipOffset cur.dataOffset).2 = 0 ∧ ∃ e host,
      v.extent n 0 v.bytesPerSector cur.cluster = some e ∧
      Written v bufferAddress (v.skipOffset cur.dataOffset).1 e cur host ∧
      host.memory = cur.host.memory.touch (bufferAddress + cur.bufferPointer) e.size false ∧
      o = v.follow n cur e host) := by
  rw [writeStep, Exec.bind_eq_ok] at h
  obtain ⟨r, hr, h⟩ := h
  obtain ⟨hne, hbackup⟩ | ⟨hzero, hfound⟩ := writeRun_found hg hcur hr
  · cases r with
    | error u => exact .inl ⟨.inl hne, (Except.ok.inj h).symm⟩
    | ok run =>
      dsimp only at h
      rw [if_pos (hbackup run rfl)] at h
      exact .inl ⟨.inl hne, (Except.ok.inj h).symm⟩
  · cases r with
    | error u => exact .inl ⟨.inr hfound, (Except.ok.inj h).symm⟩
    | ok run =>
      obtain ⟨he, hbackup, hso⟩ := hfound
      dsimp only at h
      rw [if_neg (not_not.mpr hbackup)] at h
      simp only [Exec.bind_eq_ok, checkedAdd_eq_ok, clusterToSector, checkedMul_eq_ok,
        checkedSub_eq_ok] at h
      obtain ⟨first, ⟨fats, ⟨-, rfl⟩, reserved, ⟨-, rfl⟩, index, ⟨-, rfl⟩, sectors, ⟨-, rfl⟩, -, rfl⟩,
        sector, ⟨-, rfl⟩, buffer, ⟨-, rfl⟩, ⟨r', host⟩, hwrite, h⟩ := h
      obtain ⟨hok, hmemory, hdisk⟩ := writeSectors_inv hg hwrite
      simp only at hok hmemory hdisk
      rw [hok] at h
      refine .inr ⟨hzero, _, host, he, ⟨by rw [hmemory]; rfl, fun a => ?_⟩, hmemory, nextRun_eq h⟩
      have haddress : v.clusterAddress cur.cluster + (v.skipOffset cur.dataOffset).1 *
          v.bytesPerSector = v.baseLba * v.lbaSize + (v.reservedSectors +
            v.numberOfFats * v.fatSectors + (cur.cluster - 2) * v.sectorsPerCluster +
              run.sectorOffset) * v.bytesPerSector := by
        rw [clusterAddress, hso]
        ring
      rw [hdisk, haddress]

/-- A write reads the memory, and changes nothing in it. -/
theorem write_bytes (hg : v.Geometry) {length : ℕ} {host : BlockHost σ}
    {r : Except Unit ℕ × BlockHost σ} (h : v.write file bufferAddress offset length host = .ok r) :
    r.2.memory.bytes = host.memory.bytes := by
  simp only [write, Exec.bind_eq_ok] at h
  obtain ⟨clamped, -, h⟩ := h
  cases clamped with
  | none =>
    cases h
    rfl
  | some n =>
    obtain ⟨-, rfl⟩ | ⟨cluster, -, hloop⟩ := transfer_inv (inside_eq_ok h)
    · rfl
    have hmod := Nat.mod_lt offset hg.bytesPerCluster_pos
    refine loop_ok (I := fun cur : Cursor σ => cur.dataOffset < v.bytesPerCluster ∧
        cur.host.memory.bytes = host.memory.bytes) (C := fun _ => True)
      (Q := fun r => r.2.memory.bytes = host.memory.bytes) ?_ ?_ _ _ ⟨hmod, rfl⟩
      (throughout_true _ _) hloop
    · rintro cur cur' ⟨hcur, hbytes⟩ - hstep
      obtain ⟨-, ho⟩ | ⟨-, e, host', -, hwritten, -, ho⟩ := writeStep_inv hg hcur hstep
      · cases ho
      · obtain ⟨y, -, rfl⟩ := follow_eq_next ho.symm
        exact ⟨hg.bytesPerCluster_pos, hwritten.memory.trans hbytes⟩
    · rintro cur r ⟨hcur, hbytes⟩ - hstep
      obtain ⟨-, ho⟩ | ⟨-, e, host', -, hwritten, -, ho⟩ := writeStep_inv hg hcur hstep
      · cases ho
        exact hbytes
      · rw [(follow_eq_done ho.symm).1]
        exact hwritten.memory.trans hbytes

/-- What is in the memory and on the disk does not matter for where the loop goes. -/
theorem writeStep_host {cur : Cursor σ} {o : Iter (Cursor σ) (Except Unit ℕ × BlockHost σ)}
    (h : v.writeStep bufferAddress n cur = .ok o) (host : BlockHost σ) :
    (∃ r, v.writeStep bufferAddress n { cur with host } = .ok (.done r)) ∧ (∃ r, o = .done r) ∨
      ∃ cur₁ host₁, o = .next cur₁ ∧
        v.writeStep bufferAddress n { cur with host } = .ok (.next { cur₁ with host := host₁ }) := by
  rw [writeStep] at h ⊢
  simp only [Exec.bind_eq_ok] at h
  obtain ⟨r, hr, h⟩ := h
  simp only [hr, Exec.ok_bind]
  cases r with
  | error u => exact .inl ⟨⟨_, rfl⟩, _, (Except.ok.inj h).symm⟩
  | ok run =>
    dsimp only at h ⊢
    by_cases hbackup : run.dataOffsetBackup ≠ 0
    · rw [if_pos hbackup] at h ⊢
      exact .inl ⟨⟨_, rfl⟩, _, (Except.ok.inj h).symm⟩
    · rw [if_neg hbackup] at h ⊢
      simp only [Exec.bind_eq_ok, writeSectors] at h
      obtain ⟨first, hfirst, sector, hsector, buffer, hbuffer, ⟨r', host'⟩, ⟨address, haddress, length,
        hlength, hblk⟩, h⟩ := h
      simp only [writeSectors, hfirst, hsector, hbuffer, haddress, hlength, Exec.ok_bind,
        Exec.pure_eq_ok]
      rw [Exec.pure_eq_ok, Except.ok.injEq, BlockHost.blkWrite] at hblk
      rw [BlockHost.blkWrite]
      split_ifs at hblk ⊢ with haligned
      · cases hblk
        exact .inl ⟨⟨_, rfl⟩, _, (Except.ok.inj h).symm⟩
      · cases hblk
        simp only [nextRun, Exec.bind_eq_ok] at h
        obtain ⟨bytes, hbytes, h⟩ := h
        simp only [nextRun, hbytes, Exec.ok_bind]
        split_ifs at h ⊢ with hn
        · exact .inl ⟨⟨_, rfl⟩, _, (Except.ok.inj h).symm⟩
        · cases hy : v.getNextCluster run.cluster with
          | none =>
            rw [hy] at h
            exact .inl ⟨⟨_, rfl⟩, _, (Except.ok.inj h).symm⟩
          | some y =>
            rw [hy] at h
            exact .inr ⟨_, _, (Except.ok.inj h).symm, rfl⟩

/-! ## Extents of a file -/

/-- Where the byte of the file at `i` is on the disk. -/
def fileAddress (v : Fat32) (c : ℕ → ℕ) (i : ℕ) : ℕ :=
  v.clusterAddress (c (i / v.bytesPerCluster)) + i % v.bytesPerCluster

/-- The clusters of a file, up to the last one, which has no successor. -/
structure Chain (v : Fat32) (file : FileInfo) (c : ℕ → ℕ) (count : ℕ) : Prop extends
    v.HasClusters file c count where
  last : v.getNextCluster (c (count - 1)) = none

section Chain

variable (hc : v.Chain file c count)

include hc

theorem Chain.next_eq {i y : ℕ} (hi : i < count) (hy : v.getNextCluster (c i) = some y) :
    i + 1 < count ∧ y = c (i + 1) := by
  have hlt : i + 1 < count := by
    by_contra hge
    have hlast := hc.last
    rw [show count - 1 = i by omega, hy] at hlast
    cases hlast
  rw [hc.next i hlt] at hy
  exact ⟨hlt, (Option.some.inj hy).symm⟩

theorem extentFrom_chain {least : ℕ} : ∀ {more t i : ℕ} {e : Extent}, i < count →
    v.extentFrom n 0 least more t (c i) = some e →
    (Adjacent c i (i + more) ∧ i + more < count ∧ e = ⟨v.roundUp n, n, c (i + more)⟩) ∨
      ∃ u < more, Adjacent c i (i + u) ∧ i + u + 1 < count ∧ c (i + u + 1) ≠ c (i + u) + 1 ∧
        e = ⟨(t + u + 1) * v.bytesPerCluster, (t + u + 1) * v.bytesPerCluster, c (i + u)⟩
  | 0, t, i, e, hi, h => by
    rw [extentFrom] at h
    split_ifs at h
    exact .inl ⟨fun j _ hj => by omega, hi, (Option.some.inj h).symm⟩
  | more + 1, t, i, e, hi, h => by
    rw [extentFrom, Option.bind_eq_some_iff] at h
    obtain ⟨y, hy, h⟩ := h
    obtain ⟨hlt, rfl⟩ := hc.next_eq hi hy
    split_ifs at h with hadj
    · have hcons : ∀ {u}, Adjacent c (i + 1) (i + 1 + u) → Adjacent c i (i + (u + 1)) := by
        intro u hu j hj hj'
        obtain rfl | hj := Nat.eq_or_lt_of_le hj
        · exact hadj
        · exact hu j hj (by omega)
      obtain ⟨hall, hin, rfl⟩ | ⟨u, hu, hall, hin, hne, rfl⟩ := extentFrom_chain hlt h
      · exact .inl ⟨hcons hall, by omega, by rw [show i + 1 + more = i + (more + 1) by omega]⟩
      · refine .inr ⟨u + 1, by omega, hcons hall, by omega, ?_, ?_⟩
        · rwa [show i + (u + 1) = i + 1 + u by omega]
        · rw [show i + 1 + u = i + (u + 1) by omega, show t + 1 + u + 1 = t + (u + 1) + 1 by omega]
    · exact .inr ⟨0, by omega, fun j _ hj => by omega, by omega, hadj, (Option.some.inj h).symm⟩

/-- The extent from the `i`-th cluster on : the whole length, or adjacent clusters up to one whose
successor is elsewhere. -/
theorem extent_chain {least i : ℕ} {e : Extent} (hi : i < count)
    (h : v.extent n 0 least (c i) = some e) :
    (Adjacent c i (i + (n - 1) / v.bytesPerCluster) ∧ i + (n - 1) / v.bytesPerCluster < count ∧
      e = ⟨v.roundUp n, n, c (i + (n - 1) / v.bytesPerCluster)⟩) ∨
      ∃ u < (n - 1) / v.bytesPerCluster, Adjacent c i (i + u) ∧ i + u + 1 < count ∧
        c (i + u + 1) ≠ c (i + u) + 1 ∧
        e = ⟨(u + 1) * v.bytesPerCluster, (u + 1) * v.bytesPerCluster, c (i + u)⟩ := by
  have hfrom := extentFrom_chain hc hi h
  simpa only [Nat.add_zero, Nat.zero_add] using hfrom

end Chain

/-- A run of clusters that is broken off is shorter than what is asked for. -/
theorem broken_lt (hg : v.Geometry) {u : ℕ} (hu : u < (n - 1) / v.bytesPerCluster) :
    (u + 1) * v.bytesPerCluster < n := by
  have hpos := hg.bytesPerCluster_pos
  have hmono : (u + 1) * v.bytesPerCluster ≤ (n - 1) / v.bytesPerCluster * v.bytesPerCluster :=
    Nat.mul_le_mul_right _ hu
  have hle := Nat.div_mul_le_self (n - 1) v.bytesPerCluster
  have hup : 0 < (u + 1) * v.bytesPerCluster := Nat.mul_pos (by omega) hpos
  omega

/-- Adjacent clusters are one range of the disk. -/
theorem fileAddress_adjacent (hg : v.Geometry) {i k x : ℕ} (hadj : Adjacent c i k) (h2 : 2 ≤ c i)
    (hx : i + x / v.bytesPerCluster ≤ k) :
    v.fileAddress c (i * v.bytesPerCluster + x) = v.clusterAddress (c i) + x := by
  have hpos := hg.bytesPerCluster_pos
  have hdiv : (i * v.bytesPerCluster + x) / v.bytesPerCluster = i + x / v.bytesPerCluster := by
    rw [Nat.mul_comm, Nat.mul_add_div hpos]
  have hmod : (i * v.bytesPerCluster + x) % v.bytesPerCluster = x % v.bytesPerCluster := by
    rw [Nat.mul_comm, Nat.mul_add_mod]
  rw [fileAddress, hdiv, hmod, hadj.eq_add _ hx, clusterAddress_add h2, Nat.add_assoc,
    Nat.div_add_mod']

/-- A byte of a cluster determines the cluster. -/
theorem clusterAddress_add_inj {x y p q : ℕ} (hx : 2 ≤ x) (hy : 2 ≤ y) (hp : p < v.bytesPerCluster)
    (hq : q < v.bytesPerCluster) (h : v.clusterAddress x + p = v.clusterAddress y + q) :
    x = y ∧ p = q := by
  wlog hle : x ≤ y generalizing x y p q
  · obtain ⟨hxy, hpq⟩ := this hy hx hq hp h.symm (by omega)
    exact ⟨hxy.symm, hpq.symm⟩
  obtain ⟨m, rfl⟩ := Nat.exists_eq_add_of_le hle
  rw [clusterAddress_add hx] at h
  obtain rfl | hm := Nat.eq_zero_or_pos m
  · exact ⟨rfl, by omega⟩
  · have := Nat.le_mul_of_pos_left v.bytesPerCluster hm
    omega

/-- The range of the disk holds bytes of the file from `offset` on, and only `n` of them. -/
def InFile (v : Fat32) (c : ℕ → ℕ) (offset n address size : ℕ) : Prop :=
  ∀ a, address ≤ a → a < address + size →
    ∃ p, offset ≤ p ∧ p < offset + n ∧ a = v.fileAddress c p

section InFile

variable (hg : v.Geometry) (hc : v.Chain file c count) (hn : 0 < n)
  (hend : offset + n ≤ count * v.bytesPerCluster)

include hg hc

theorem fileAddress_inj {p q : ℕ} (hp : p / v.bytesPerCluster < count)
    (hq : q / v.bytesPerCluster < count) (h : v.fileAddress c p = v.fileAddress c q) : p = q := by
  have hpos := hg.bytesPerCluster_pos
  obtain ⟨hcluster, hmod⟩ := clusterAddress_add_inj (hc.onVolume _ hp).1 (hc.onVolume _ hq).1
    (Nat.mod_lt _ hpos) (Nat.mod_lt _ hpos) h
  have hdiv := hc.distinct _ hp _ hq hcluster
  rw [← Nat.div_add_mod' p v.bytesPerCluster, hdiv, hmod, Nat.div_add_mod']

include hn hend

/-- A transfer from the begin of a later cluster. -/
theorem inFile_later_iff {least i : ℕ} {e : Extent} (hi : offset / v.bytesPerCluster < i)
    (hicount : i < count) (he : v.extent n 0 least (c i) = some e) :
    v.InFile c offset n (v.clusterAddress (c i)) e.size ↔
      e.bytes < n ∧ i * v.bytesPerCluster + e.bytes ≤ offset + n := by
  have hpos := hg.bytesPerCluster_pos
  have hpcount : ∀ {p}, p < offset + n → p / v.bytesPerCluster < count := fun hp =>
    (Nat.div_lt_iff_lt_mul hpos).mpr (by omega)
  have hoffset : offset < i * v.bytesPerCluster := (Nat.div_lt_iff_lt_mul hpos).mp hi
  have h2 := (hc.onVolume i hicount).1
  have hT := Nat.div_mul_le_self (n - 1) v.bytesPerCluster
  obtain ⟨hadj, hlast, rfl⟩ | ⟨u, hu, hadj, hlast, hne, rfl⟩ := extent_chain hc hicount he
  · refine ⟨fun hin => ?_, fun h => absurd h.1 (lt_irrefl _)⟩
    have hround : n ≤ v.roundUp n := by
      have := (extent_bytes hg (Nat.zero_le _) he).1
      simpa using this
    obtain ⟨p, hp, hp', heq⟩ := hin (v.clusterAddress (c i) + (n - 1)) (by omega) (by
      simp only
      omega)
    have hsame := fileAddress_adjacent hg hadj h2 (x := n - 1) le_rfl
    have hq : (i * v.bytesPerCluster + (n - 1)) / v.bytesPerCluster < count := by
      rw [Nat.mul_comm, Nat.mul_add_div hpos]
      exact hlast
    have := fileAddress_inj hg hc (hpcount hp') hq (heq.symm.trans hsame.symm)
    omega
  · have hmono : (u + 1) * v.bytesPerCluster ≤ (n - 1) / v.bytesPerCluster * v.bytesPerCluster :=
      Nat.mul_le_mul_right _ hu
    have hup : 0 < (u + 1) * v.bytesPerCluster := Nat.mul_pos (by omega) hpos
    have hdiv : ∀ {x}, x < (u + 1) * v.bytesPerCluster → i + x / v.bytesPerCluster ≤ i + u :=
      fun hx => Nat.add_le_add_left (Nat.le_of_lt_succ ((Nat.div_lt_iff_lt_mul hpos).mpr hx)) i
    constructor
    · intro hin
      refine ⟨by simp only; omega, ?_⟩
      obtain ⟨p, hp, hp', heq⟩ := hin (v.clusterAddress (c i) + ((u + 1) * v.bytesPerCluster - 1))
        (by omega) (by simp only; omega)
      have hsame := fileAddress_adjacent hg hadj h2 (x := (u + 1) * v.bytesPerCluster - 1)
        (hdiv (by omega))
      have hq : (i * v.bytesPerCluster + ((u + 1) * v.bytesPerCluster - 1)) / v.bytesPerCluster <
          count := by
        rw [Nat.mul_comm i, Nat.mul_add_div hpos]
        exact lt_of_le_of_lt (hdiv (by omega)) (by omega)
      have := fileAddress_inj hg hc (hpcount hp') hq (heq.symm.trans hsame.symm)
      simp only
      omega
    · rintro ⟨-, hle⟩ a ha ha'
      simp only at hle ha'
      obtain ⟨x, rfl⟩ := Nat.exists_eq_add_of_le ha
      have hsame := fileAddress_adjacent hg hadj h2 (x := x) (hdiv (by omega))
      exact ⟨_, by omega, by omega, hsame.symm⟩

/-- The first transfer, if it has the whole length. -/
theorem inFile_full_iff (hd : v.bytesPerSector ∣ offset % v.bytesPerCluster)
    (hadj : Adjacent c (offset / v.bytesPerCluster)
      (offset / v.bytesPerCluster + (n - 1) / v.bytesPerCluster)) :
    v.InFile c offset n (v.clusterAddress (c (offset / v.bytesPerCluster)) +
        offset % v.bytesPerCluster) (v.roundUp n) ↔
      v.bytesPerSector ∣ n ∧
        Adjacent c (offset / v.bytesPerCluster) ((offset + n - 1) / v.bytesPerCluster) := by
  have hpos := hg.bytesPerCluster_pos
  have hdiv := Nat.div_add_mod' offset v.bytesPerCluster
  have hmod := Nat.mod_lt offset hpos
  set k := offset / v.bytesPerCluster with hk
  set d := offset % v.bytesPerCluster with hd'
  have hpcount : ∀ {p}, p < offset + n → p / v.bytesPerCluster < count := fun hp =>
    (Nat.div_lt_iff_lt_mul hpos).mpr (by omega)
  have hkcount : k < count := hpcount (by omega)
  have h2 := (hc.onVolume k hkcount).1
  obtain ⟨S, hS, hSlo, hShi⟩ := exists_parts hg.sectorPos hn
  have hround : v.roundUp n = (S + 1) * v.bytesPerSector := by
    rw [roundUp, max_eq_left (by omega), hS, Nat.add_comm]
  obtain ⟨T, hT, hTlo, hThi⟩ := exists_parts hpos hn
  obtain ⟨L, hL, hLlo, hLhi⟩ := exists_parts hpos (show 0 < d + n by omega)
  have hlast : (offset + n - 1) / v.bytesPerCluster = k + L := by
    rw [← hL, ← hdiv, Nat.add_assoc, Nat.add_sub_assoc (by omega), Nat.mul_comm,
      Nat.mul_add_div hpos]
  have hexp : (T + 1) * v.bytesPerCluster = T * v.bytesPerCluster + v.bytesPerCluster := by ring
  have hLT : L ≤ T + 1 := by
    have : L * v.bytesPerCluster < (T + 2) * v.bytesPerCluster := by
      rw [show (T + 2) * v.bytesPerCluster = T * v.bytesPerCluster + v.bytesPerCluster +
        v.bytesPerCluster by ring]
      omega
    have := Nat.lt_of_mul_lt_mul_right this
    omega
  rw [hT] at hadj
  rw [hlast, hround]
  constructor
  · intro hin
    -- the cluster behind those that the loop has counted
    have hadj' : Adjacent c k (k + L) := by
      intro i hi hi'
      by_cases hiT : i < k + T
      · exact hadj i hi hiT
      obtain rfl : i = k + T := by omega
      have hLeq : L = T + 1 := by omega
      rw [hLeq] at hLlo
      obtain ⟨p, hp, hp', heq⟩ := hin (v.clusterAddress (c k) + (T + 1) * v.bytesPerCluster)
        (by omega) (by omega)
      rw [← clusterAddress_add h2, fileAddress] at heq
      obtain ⟨hcp, -⟩ := clusterAddress_add_inj (p := 0) (by omega)
        (hc.onVolume _ (hpcount hp')).1 hpos (Nat.mod_lt _ hpos) heq
      have hple : p / v.bytesPerCluster ≤ k + L := by
        rw [← hlast]
        exact Nat.div_le_div_right (by omega)
      have hkp : k ≤ p / v.bytesPerCluster := Nat.div_le_div_right hp
      by_cases hpT : p / v.bytesPerCluster ≤ k + T
      · obtain ⟨m, hm⟩ := Nat.exists_eq_add_of_le hkp
        have := hadj.eq_add m (by omega)
        rw [hm, this] at hcp
        omega
      · rw [show p / v.bytesPerCluster = k + T + 1 by omega] at hcp
        rw [← hcp, hadj.eq_add T le_rfl]
        omega
    refine ⟨?_, hadj'⟩
    by_contra hnot
    have hdvdB : v.bytesPerSector ∣ v.bytesPerCluster := Nat.dvd_mul_left _ _
    have hlt : n < (S + 1) * v.bytesPerSector := by
      refine lt_of_le_of_ne hShi fun heq => hnot ?_
      rw [heq]
      exact Nat.dvd_mul_left _ _
    have hLhi' : d + n < (L + 1) * v.bytesPerCluster := by
      refine lt_of_le_of_ne hLhi fun heq => hnot ?_
      exact (Nat.dvd_add_right hd).mp (heq ▸ hdvdB.mul_left _)
    have hdivL : (d + n) / v.bytesPerCluster ≤ L :=
      Nat.le_of_lt_succ ((Nat.div_lt_iff_lt_mul hpos).mpr hLhi')
    obtain ⟨p, hp, hp', heq⟩ := hin (v.clusterAddress (c k) + (d + n)) (by omega) (by omega)
    have hsame := fileAddress_adjacent hg hadj' h2 (x := d + n) (by omega)
    have hq : (k * v.bytesPerCluster + (d + n)) / v.bytesPerCluster < count := by
      have := hpcount (show offset + n - 1 < offset + n by omega)
      rw [Nat.mul_comm, Nat.mul_add_div hpos]
      omega
    have := fileAddress_inj hg hc (hpcount hp') hq (heq.symm.trans hsame.symm)
    omega
  · rintro ⟨hdvd, hadj'⟩ a ha ha'
    obtain ⟨x, rfl⟩ := Nat.exists_eq_add_of_le ha
    have hsize : (S + 1) * v.bytesPerSector = n := by
      obtain ⟨m, hm⟩ := hdvd
      have : S < m := Nat.lt_of_mul_lt_mul_right (a := v.bytesPerSector) (by
        rw [Nat.mul_comm m]
        omega)
      have := Nat.mul_le_mul_right v.bytesPerSector (show S + 1 ≤ m by omega)
      rw [Nat.mul_comm m] at this
      omega
    have hdivL : (d + x) / v.bytesPerCluster < L + 1 :=
      (Nat.div_lt_iff_lt_mul hpos).mpr (by omega)
    have hsame := fileAddress_adjacent hg hadj' h2 (x := d + x) (by omega)
    refine ⟨offset + x, by omega, by omega, ?_⟩
    rw [Nat.add_assoc, ← hsame, ← Nat.add_assoc, hdiv]

/-- The first transfer, if its clusters are broken off. -/
theorem inFile_broken_iff {u : ℕ} (hu : u < (n - 1) / v.bytesPerCluster)
    (hadj : Adjacent c (offset / v.bytesPerCluster) (offset / v.bytesPerCluster + u)) :
    v.InFile c offset n (v.clusterAddress (c (offset / v.bytesPerCluster)) +
        offset % v.bytesPerCluster) ((u + 1) * v.bytesPerCluster) ↔
      offset % v.bytesPerCluster = 0 ∨ ∃ j, offset / v.bytesPerCluster < j ∧ j < count ∧
        c j = c (offset / v.bytesPerCluster) + (u + 1) ∧
        j * v.bytesPerCluster + offset % v.bytesPerCluster ≤ offset + n := by
  have hpos := hg.bytesPerCluster_pos
  have hdiv := Nat.div_add_mod' offset v.bytesPerCluster
  have hmod := Nat.mod_lt offset hpos
  set k := offset / v.bytesPerCluster with hk
  set d := offset % v.bytesPerCluster with hd'
  have hpcount : ∀ {p}, p < offset + n → p / v.bytesPerCluster < count := fun hp =>
    (Nat.div_lt_iff_lt_mul hpos).mpr (by omega)
  have h2 := (hc.onVolume k (hpcount (by omega))).1
  have hT := Nat.div_mul_le_self (n - 1) v.bytesPerCluster
  have hmono : (u + 1) * v.bytesPerCluster ≤ (n - 1) / v.bytesPerCluster * v.bytesPerCluster :=
    Nat.mul_le_mul_right _ hu
  have hup : v.bytesPerCluster ≤ (u + 1) * v.bytesPerCluster := Nat.le_mul_of_pos_left _ (by omega)
  constructor
  · intro hin
    by_cases hd0 : d = 0
    · exact .inl hd0
    right
    -- the last byte that is written is in the cluster behind the run
    obtain ⟨p, hp, hp', heq⟩ := hin (v.clusterAddress (c k) + (u + 1) * v.bytesPerCluster + (d - 1))
      (by omega) (by omega)
    rw [← clusterAddress_add h2, fileAddress] at heq
    obtain ⟨hcp, hmodp⟩ := clusterAddress_add_inj (by omega) (hc.onVolume _ (hpcount hp')).1
      (by omega) (Nat.mod_lt _ hpos) heq
    have hdivp := Nat.div_add_mod' p v.bytesPerCluster
    have hkp : k ≤ p / v.bytesPerCluster := Nat.div_le_div_right hp
    refine ⟨p / v.bytesPerCluster, lt_of_le_of_ne hkp fun h => ?_, hpcount hp', hcp.symm, by omega⟩
    rw [← h] at hcp
    omega
  · intro hor a ha ha'
    obtain ⟨x, rfl⟩ := Nat.exists_eq_add_of_le ha
    by_cases hx : d + x < (u + 1) * v.bytesPerCluster
    · have hdivu : (d + x) / v.bytesPerCluster < u + 1 := (Nat.div_lt_iff_lt_mul hpos).mpr hx
      have hsame := fileAddress_adjacent hg hadj h2 (x := d + x) (by omega)
      refine ⟨offset + x, by omega, by omega, ?_⟩
      rw [Nat.add_assoc, ← hsame, ← Nat.add_assoc, hdiv]
    · obtain ⟨j, hj, hjcount, hcj, hle⟩ := hor.resolve_left (by omega)
      obtain ⟨z, hz⟩ := Nat.exists_eq_add_of_le (not_lt.mp hx)
      have hself : Adjacent c j j := fun i _ _ => by omega
      have hdivz : z / v.bytesPerCluster = 0 := Nat.div_eq_of_lt (by omega)
      have hsame := fileAddress_adjacent hg hself (hc.onVolume j hjcount).1 (x := z) (by omega)
      have hjB : (k + 1) * v.bytesPerCluster ≤ j * v.bytesPerCluster := Nat.mul_le_mul_right _ hj
      rw [Nat.add_mul, Nat.one_mul] at hjB
      refine ⟨j * v.bytesPerCluster + z, by omega, by omega, ?_⟩
      rw [hsame, hcj, clusterAddress_add h2, Nat.add_assoc, hz, Nat.add_assoc]

end InFile

/-! ## All transfers -/

/-- The bytes of the disk are as before, except those of the file from `offset` on. -/
def Untouched (v : Fat32) (c : ℕ → ℕ) (offset n : ℕ) (host host' : BlockHost σ) : Prop :=
  ∀ a, (∀ p, offset ≤ p → p < offset + n → a ≠ v.fileAddress c p) → host'.disk a = host.disk a

/-- Where the clusters of the file may be for a write of `n` bytes at `offset`, the begin of a sector. The
first transfer has the whole length, in whole sectors and adjacent clusters; or it is broken off, and the
sectors that are skipped in front of it are not missing at its end. Later ones are broken off, and end in
the part of the file that is to be written. -/
structure WriteFits (v : Fat32) (c : ℕ → ℕ) (count offset n : ℕ) : Prop where
  first : ∀ e, v.extent n 0 v.bytesPerSector (c (offset / v.bytesPerCluster)) = some e →
    (e.bytes = n ∧ v.bytesPerSector ∣ n ∧
      Adjacent c (offset / v.bytesPerCluster) ((offset + n - 1) / v.bytesPerCluster)) ∨
    (e.bytes < n ∧ (offset % v.bytesPerCluster = 0 ∨ ∃ j, offset / v.bytesPerCluster < j ∧ j < count ∧
      c j = c (offset / v.bytesPerCluster) + e.bytes / v.bytesPerCluster ∧
      j * v.bytesPerCluster + offset % v.bytesPerCluster ≤ offset + n))
  later : ∀ i bytes e, offset / v.bytesPerCluster < i → i < count →
    v.Later n (v.extent n 0 v.bytesPerSector (c (offset / v.bytesPerCluster)))
      (v.extent n 0 v.bytesPerSector) (c i) bytes →
    v.extent n 0 v.bytesPerSector (c i) = some e →
    e.bytes < n ∧ i * v.bytesPerCluster + e.bytes ≤ offset + n

section Loop

/-- The first transfer. -/
theorem inFile_first_iff (hg : v.Geometry) (hc : v.Chain file c count) (hn : 0 < n)
    (hend : offset + n ≤ count * v.bytesPerCluster)
    (hd : v.bytesPerSector ∣ offset % v.bytesPerCluster) {least : ℕ} {e : Extent}
    (he : v.extent n 0 least (c (offset / v.bytesPerCluster)) = some e) :
    v.InFile c offset n (v.clusterAddress (c (offset / v.bytesPerCluster)) +
        offset % v.bytesPerCluster) e.size ↔
      (e.bytes = n ∧ v.bytesPerSector ∣ n ∧
        Adjacent c (offset / v.bytesPerCluster) ((offset + n - 1) / v.bytesPerCluster)) ∨
      (e.bytes < n ∧ (offset % v.bytesPerCluster = 0 ∨ ∃ j, offset / v.bytesPerCluster < j ∧
        j < count ∧ c j = c (offset / v.bytesPerCluster) + e.bytes / v.bytesPerCluster ∧
        j * v.bytesPerCluster + offset % v.bytesPerCluster ≤ offset + n)) := by
  have hpos := hg.bytesPerCluster_pos
  have hkcount : offset / v.bytesPerCluster < count := (Nat.div_lt_iff_lt_mul hpos).mpr (by omega)
  obtain ⟨hadj, -, rfl⟩ | ⟨u, hu, hadj, -, -, rfl⟩ := extent_chain hc hkcount he
  · rw [inFile_full_iff hg hc hn hend hd hadj]
    simp only [true_and, lt_irrefl, false_and, or_false]
  · have hmono : (u + 1) * v.bytesPerCluster ≤ (n - 1) / v.bytesPerCluster * v.bytesPerCluster :=
      Nat.mul_le_mul_right _ hu
    have hT := Nat.div_mul_le_self (n - 1) v.bytesPerCluster
    have hlt : (u + 1) * v.bytesPerCluster < n := by omega
    rw [inFile_broken_iff hg hc hn hend hu hadj]
    simp only [hlt.ne, false_and, false_or, hlt, true_and, Nat.mul_div_cancel _ hpos]

/-- The last cluster of an extent is one of the file. -/
theorem extent_last (hc : v.Chain file c count) {least i : ℕ} {e : Extent} (hi : i < count)
    (he : v.extent n 0 least (c i) = some e) : ∃ j, i ≤ j ∧ j < count ∧ e.last = c j := by
  obtain ⟨-, hlast, rfl⟩ | ⟨u, -, -, hlast, -, rfl⟩ := extent_chain hc hi he
  · exact ⟨_, Nat.le_add_right _ _, hlast, rfl⟩
  · exact ⟨_, Nat.le_add_right _ _, by omega, rfl⟩

theorem Written.untouched {so : ℕ} {e : Extent} {cur : Cursor σ} {host host' : BlockHost σ}
    (h : Written v bufferAddress so e cur host') (hcur : v.Untouched c offset n host cur.host)
    (hin : v.InFile c offset n (v.clusterAddress cur.cluster + so * v.bytesPerSector) e.size) :
    v.Untouched c offset n host host' := by
  intro a ha
  rw [h.disk, if_neg, hcur a ha]
  rintro ⟨hlo, hhi⟩
  obtain ⟨p, hp, hp', heq⟩ := hin a hlo hhi
  exact ha p hp hp' heq

/-- The first iteration, or a later one at a cluster of the file. -/
def AtWrite (v : Fat32) (c : ℕ → ℕ) (count offset n : ℕ) (host : BlockHost σ) (cur : Cursor σ) : Prop :=
  cur = ⟨offset % v.bytesPerCluster, c (offset / v.bytesPerCluster), 0, host⟩ ∨
    (cur.dataOffset = 0 ∧ ∃ i, offset / v.bytesPerCluster < i ∧ i < count ∧ cur.cluster = c i ∧
      v.Later n (v.extent n 0 v.bytesPerSector (c (offset / v.bytesPerCluster)))
        (v.extent n 0 v.bytesPerSector) (c i) cur.bufferPointer)

/-- What follows a transfer is a later one at a cluster of the file, or the end. -/
theorem follow_atWrite (hc : v.Chain file c count) (hkcount : offset / v.bytesPerCluster < count)
    {host host' : BlockHost σ} {cur : Cursor σ} (hcur : AtWrite v c count offset n host cur)
    {e : Extent} (he : v.extent n 0 v.bytesPerSector cur.cluster = some e) :
    (∃ r, v.follow n cur e host' = .done (r, host')) ∨
      ∃ cur', v.follow n cur e host' = .next cur' ∧ cur'.host = host' ∧
        AtWrite v c count offset n host cur' := by
  rw [follow]
  split_ifs with hn
  · exact .inl ⟨_, rfl⟩
  · cases hy : v.getNextCluster e.last with
    | none => exact .inl ⟨_, rfl⟩
    | some y =>
      refine .inr ⟨_, rfl, rfl, .inr ⟨rfl, ?_⟩⟩
      obtain rfl | ⟨hd, i, hi, hicount, hcluster, hlater⟩ := hcur
      · obtain ⟨j, hj, hjcount, hlast⟩ := extent_last hc hkcount he
        have hy' := hy
        rw [hlast] at hy'
        obtain ⟨hlt, rfl⟩ := hc.next_eq hjcount hy'
        rw [Nat.zero_add] at hn ⊢
        exact ⟨j + 1, by omega, hlt, rfl, .first he hn hy⟩
      · rw [hcluster] at he
        obtain ⟨j, hj, hjcount, hlast⟩ := extent_last hc hicount he
        have hy' := hy
        rw [hlast] at hy'
        obtain ⟨hlt, rfl⟩ := hc.next_eq hjcount hy'
        exact ⟨j + 1, by omega, hlt, rfl, .next hlater he hn hy⟩

/-- The whole sectors of an offset without a rest. -/
theorem skipOffset_sectors (hg : v.Geometry) {dataOffset : ℕ} (hd : dataOffset < v.bytesPerCluster)
    (hzero : (v.skipOffset dataOffset).2 = 0) :
    (v.skipOffset dataOffset).1 * v.bytesPerSector = dataOffset := by
  have := (runStep_skipOffset hg 0 0 hd).2.2
  omega

/-- If all transfers fit, the rest of the disk is not touched. -/
theorem untouched_of_fits (hg : v.Geometry) (hc : v.Chain file c count) (hn : 0 < n)
    (hend : offset + n ≤ count * v.bytesPerCluster)
    (hfits : (v.skipOffset (offset % v.bytesPerCluster)).2 = 0 → v.WriteFits c count offset n)
    {host : BlockHost σ} {r : Except Unit ℕ × BlockHost σ}
    (h : loop (v.writeStep bufferAddress n) maxIterations
      ⟨offset % v.bytesPerCluster, c (offset / v.bytesPerCluster), 0, host⟩ = .ok r) :
    v.Untouched c offset n host r.2 := by
  have hpos := hg.bytesPerCluster_pos
  have hmod := Nat.mod_lt offset hpos
  have hkcount : offset / v.bytesPerCluster < count := (Nat.div_lt_iff_lt_mul hpos).mpr (by omega)
  have hstep : ∀ {cur : Cursor σ} {o : Iter (Cursor σ) (Except Unit ℕ × BlockHost σ)},
      AtWrite v c count offset n host cur → ((v.skipOffset (offset % v.bytesPerCluster)).2 = 0 ∨
        cur.dataOffset = offset % v.bytesPerCluster) →
      v.Untouched c offset n host cur.host → v.writeStep bufferAddress n cur = .ok o →
      (∃ r, o = .done r ∧ v.Untouched c offset n host r.2) ∨
        ∃ cur', o = .next cur' ∧ AtWrite v c count offset n host cur' ∧
          (v.skipOffset (offset % v.bytesPerCluster)).2 = 0 ∧
          v.Untouched c offset n host cur'.host := by
    intro cur o hcur hzero huntouched hs
    have hdata : cur.dataOffset < v.bytesPerCluster := by
      obtain rfl | ⟨hd, -⟩ := hcur
      · exact hmod
      · omega
    obtain ⟨-, rfl⟩ | ⟨hskip, e, host', he, hwritten, -, rfl⟩ := writeStep_inv hg hdata hs
    · exact .inl ⟨_, rfl, huntouched⟩
    · have hzero' : (v.skipOffset (offset % v.bytesPerCluster)).2 = 0 := by
        obtain hzero | hsame := hzero
        · exact hzero
        · rwa [hsame] at hskip
      have hfits := hfits hzero'
      have hin : v.InFile c offset n (v.clusterAddress cur.cluster +
          (v.skipOffset cur.dataOffset).1 * v.bytesPerSector) e.size := by
        rw [skipOffset_sectors hg hdata hskip]
        obtain rfl | ⟨hd, i, hi, hicount, hcluster, hlater⟩ := hcur
        · have hdvd : v.bytesPerSector ∣ offset % v.bytesPerCluster :=
            ⟨_, by rw [Nat.mul_comm]; exact (skipOffset_sectors hg hmod hzero').symm⟩
          exact (inFile_first_iff hg hc hn hend hdvd he).mpr (hfits.first e he)
        · rw [hd, hcluster, Nat.add_zero]
          rw [hcluster] at he
          exact (inFile_later_iff hg hc hn hend hi hicount he).mpr
            (hfits.later i _ e hi hicount hlater he)
      have huntouched' := hwritten.untouched huntouched hin
      obtain ⟨r, hr⟩ | ⟨cur', hnext, hhost, hat⟩ := follow_atWrite hc hkcount hcur he
      · exact .inl ⟨_, hr, huntouched'⟩
      · exact .inr ⟨cur', hnext, hat, hzero', by rwa [hhost]⟩
  refine loop_ok (I := fun cur => AtWrite v c count offset n host cur ∧
      ((v.skipOffset (offset % v.bytesPerCluster)).2 = 0 ∨
        cur.dataOffset = offset % v.bytesPerCluster) ∧ v.Untouched c offset n host cur.host)
    (C := fun _ => True) (Q := fun r => v.Untouched c offset n host r.2) ?_ ?_ _ _
    ⟨.inl rfl, .inr rfl, fun _ _ => rfl⟩ (throughout_true _ _) h
  · rintro cur cur' ⟨hcur, hzero, hu⟩ - hs
    obtain ⟨r, ho, -⟩ | ⟨cur'', ho, hcur', hzero', hu'⟩ := hstep hcur hzero hu hs
    · cases ho
    · cases ho
      exact ⟨hcur', .inl hzero', hu'⟩
  · rintro cur r ⟨hcur, hzero, hu⟩ - hs
    obtain ⟨r', ho, hr⟩ | ⟨cur'', ho, -⟩ := hstep hcur hzero hu hs
    · cases ho
      exact hr
    · cases ho

end Loop

/-! ## What is stored -/

/-- The transfers of a write of `n` bytes at `offset`, the begin of a sector, follow each other in
the file. The first one has the whole length, in whole sectors and adjacent clusters; or it begins
with its cluster and is broken off. Later ones are broken off, and end in the part of the file that
is to be written. -/
structure WriteInOrder (v : Fat32) (c : ℕ → ℕ) (count offset n : ℕ) : Prop where
  first : ∀ e, v.extent n 0 v.bytesPerSector (c (offset / v.bytesPerCluster)) = some e →
    (e.bytes = n ∧ v.bytesPerSector ∣ n ∧
      Adjacent c (offset / v.bytesPerCluster) ((offset + n - 1) / v.bytesPerCluster)) ∨
    (e.bytes < n ∧ offset % v.bytesPerCluster = 0)
  later : ∀ i bytes e, offset / v.bytesPerCluster < i → i < count →
    v.Later n (v.extent n 0 v.bytesPerSector (c (offset / v.bytesPerCluster)))
      (v.extent n 0 v.bytesPerSector) (c i) bytes →
    v.extent n 0 v.bytesPerSector (c i) = some e →
    e.bytes < n ∧ i * v.bytesPerCluster + e.bytes ≤ offset + n

theorem WriteInOrder.fits (h : v.WriteInOrder c count offset n) : v.WriteFits c count offset n :=
  ⟨fun e he => (h.first e he).imp_right fun hbroken => ⟨hbroken.1, .inl hbroken.2⟩, h.later⟩

/-- The bytes in front of the next transfer are stored, and it goes on behind them. -/
structure AtStored (v : Fat32) (c : ℕ → ℕ) (count bufferAddress offset n : ℕ) (host : BlockHost σ) (i : ℕ)
    (cur : Cursor σ) : Prop where
  inside : i < count
  cluster : cur.cluster = c i
  position : offset + cur.bufferPointer = i * v.bytesPerCluster + cur.dataOffset
  small : cur.dataOffset < v.bytesPerCluster
  first : i = offset / v.bytesPerCluster ∧ cur.bufferPointer = 0 ∨
    cur.dataOffset = 0 ∧ offset / v.bytesPerCluster < i ∧
      v.Later n (v.extent n 0 v.bytesPerSector (c (offset / v.bytesPerCluster)))
        (v.extent n 0 v.bytesPerSector) (c i) cur.bufferPointer
  memory : cur.host.memory.bytes = host.memory.bytes
  stored : ∀ j < cur.bufferPointer, v.fileByte cur.host.disk c (offset + j) =
    host.memory.bytes (bufferAddress + j)

/-- A transfer to the next bytes of the file, which leaves those in front. -/
theorem Written.stored {so size : ℕ} {e : Extent} {cur : Cursor σ} {host host' : BlockHost σ}
    (h : Written v bufferAddress so e cur host') (hsize : size ≤ e.size)
    (hmemory : cur.host.memory.bytes = host.memory.bytes)
    (hbehind : ∀ x < size, v.fileAddress c (offset + cur.bufferPointer + x) =
      v.clusterAddress cur.cluster + so * v.bytesPerSector + x)
    (hfront : ∀ j < cur.bufferPointer, v.fileAddress c (offset + j) ∉
      Set.Ico (v.clusterAddress cur.cluster + so * v.bytesPerSector)
        (v.clusterAddress cur.cluster + so * v.bytesPerSector + e.size))
    (hstored : ∀ j < cur.bufferPointer, v.fileByte cur.host.disk c (offset + j) =
      host.memory.bytes (bufferAddress + j)) :
    ∀ j < cur.bufferPointer + size, v.fileByte host'.disk c (offset + j) =
      host.memory.bytes (bufferAddress + j) := by
  intro j hj
  have hbyte : v.fileByte host'.disk c (offset + j) = host'.disk (v.fileAddress c (offset + j)) := rfl
  rw [hbyte, h.disk]
  by_cases hlt : j < cur.bufferPointer
  · exact (if_neg (hfront j hlt)).trans (hstored j hlt)
  · obtain ⟨x, rfl⟩ := Nat.exists_eq_add_of_le (not_lt.mp hlt)
    rw [← Nat.add_assoc, hbehind x (by omega), if_pos ⟨by omega, by omega⟩, hmemory,
      Nat.add_sub_cancel_left, Nat.add_assoc]

section Stored

variable (hg : v.Geometry) (hc : v.Chain file c count) (hn : 0 < n)
  (hend : offset + n ≤ count * v.bytesPerCluster) (hin : v.WriteInOrder c count offset n)
  {i : ℕ} {host host' : BlockHost σ} {cur : Cursor σ} {e : Extent}

include hg hc hn hend hin

/-- One transfer stores the next bytes of the file. -/
theorem AtStored.transferred (hcur : AtStored v c count bufferAddress offset n host i cur)
    (hskip : (v.skipOffset cur.dataOffset).2 = 0)
    (he : v.extent n 0 v.bytesPerSector (c i) = some e)
    (hwritten : Written v bufferAddress (v.skipOffset cur.dataOffset).1 e cur host') :
    (e.bytes < n → cur.dataOffset = 0) ∧
      ∀ j < cur.bufferPointer + e.bytes, v.fileByte host'.disk c (offset + j) =
        host.memory.bytes (bufferAddress + j) := by
  obtain ⟨hicount, hcluster, hposition, hsmall, hfirst, hmemory, hstored⟩ := hcur
  have hpos := hg.bytesPerCluster_pos
  have hsectors := skipOffset_sectors hg hsmall hskip
  have h2 := (hc.onVolume i hicount).1
  obtain ⟨hbytes, -⟩ := extent_bytes hg (Nat.zero_le _) he
  have hdata : e.bytes < n → cur.dataOffset = 0 := by
    intro hlt
    obtain ⟨rfl, hzero⟩ | ⟨hzero, -⟩ := hfirst
    · obtain ⟨heq, -⟩ | ⟨-, hmod⟩ := hin.first e he
      · omega
      · have := Nat.div_add_mod' offset v.bytesPerCluster
        omega
    · exact hzero
  -- the clusters of the extent are adjacent, up to the last byte that counts
  have hadjacent : ∃ k, Adjacent c i k ∧ ∀ x < e.bytes,
      i + (cur.dataOffset + x) / v.bytesPerCluster ≤ k := by
    obtain ⟨-, -, rfl⟩ | ⟨u, hu, hadj, -, -, rfl⟩ := extent_chain hc hicount he
    · obtain ⟨rfl, hzero⟩ | ⟨-, hlt, hlater⟩ := hfirst
      · obtain ⟨-, -, hadj⟩ | ⟨hlt, -⟩ := hin.first _ he
        · refine ⟨_, hadj, fun x hx => ?_⟩
          rw [← Nat.mul_add_div hpos, Nat.mul_comm]
          exact Nat.div_le_div_right (by simp only at hx; omega)
        · exact absurd hlt (lt_irrefl n)
      · exact absurd (hin.later i _ _ hlt hicount hlater he).1 (lt_irrefl n)
    · have hzero := hdata (broken_lt hg hu)
      refine ⟨_, hadj, fun x hx => Nat.add_le_add_left (Nat.le_of_lt_succ ?_) i⟩
      rw [hzero, Nat.zero_add]
      exact (Nat.div_lt_iff_lt_mul hpos).mpr hx
  obtain ⟨k, hadj, hk⟩ := hadjacent
  have hsame : ∀ x < e.bytes, v.fileAddress c (offset + cur.bufferPointer + x) =
      v.clusterAddress cur.cluster + (v.skipOffset cur.dataOffset).1 * v.bytesPerSector + x := by
    intro x hx
    rw [hposition, Nat.add_assoc, fileAddress_adjacent hg hadj h2 (hk x hx), hcluster, hsectors,
      Nat.add_assoc]
  refine ⟨hdata, hwritten.stored (by omega) hmemory hsame (fun j hj hmem => ?_) hstored⟩
  -- bytes in front are only there behind extents that were broken off, and then this one is, too
  obtain ⟨-, hzero⟩ | ⟨hzero, hlt, hlater⟩ := hfirst
  · omega
  obtain ⟨hbroken, hlast⟩ := hin.later i _ e hlt hicount hlater he
  have hexact : e.size = e.bytes := by
    obtain ⟨-, -, rfl⟩ | ⟨u, -, -, -, -, rfl⟩ := extent_chain hc hicount he
    · exact absurd hbroken (lt_irrefl n)
    · rfl
  obtain ⟨hlo, hhi⟩ := hmem
  obtain ⟨x, hx⟩ := Nat.exists_eq_add_of_le hlo
  have hinside : ∀ {p}, p < offset + n → p / v.bytesPerCluster < count := fun hp =>
    (Nat.div_lt_iff_lt_mul hpos).mpr (by omega)
  have := fileAddress_inj hg hc (hinside (by omega)) (hinside (by omega))
    (hx.trans (hsame x (by omega)).symm)
  omega

/-- What an iteration does : the write has failed, or all bytes are stored, or those in front of the next
transfer are. -/
theorem AtStored.step (hcur : AtStored v c count bufferAddress offset n host i cur)
    {o : Iter (Cursor σ) (Except Unit ℕ × BlockHost σ)} (h : v.writeStep bufferAddress n cur = .ok o) :
    (∃ host', o = .done (.error (), host')) ∨
      (∃ m host', o = .done (.ok m, host') ∧ ∀ j < n, v.fileByte host'.disk c (offset + j) =
        host.memory.bytes (bufferAddress + j)) ∨
      ∃ i' cur', o = .next cur' ∧ AtStored v c count bufferAddress offset n host i' cur' := by
  obtain ⟨-, rfl⟩ | ⟨hskip, e, host', he, hwritten, -, rfl⟩ := writeStep_inv hg hcur.small h
  · exact .inl ⟨_, rfl⟩
  rw [hcur.cluster] at he
  obtain ⟨hdata, hstored⟩ := hcur.transferred hg hc hn hend hin hskip he hwritten
  rw [follow]
  split_ifs with heq
  · rw [← heq] at hstored
    exact .inr (.inl ⟨_, _, rfl, hstored⟩)
  cases hy : v.getNextCluster e.last with
  | none => exact .inl ⟨_, rfl⟩
  | some y =>
    have hpos := hg.bytesPerCluster_pos
    have hmemory : host'.memory.bytes = host.memory.bytes := hwritten.memory.trans hcur.memory
    have hlast := extent_chain hc hcur.inside he
    have hbroken : e.bytes < n := by
      obtain ⟨hi, hzero⟩ | ⟨-, hlt, hlater⟩ := hcur.first
      · obtain ⟨-, -, rfl⟩ | ⟨u, hu, -, -, -, rfl⟩ := hlast
        · exact absurd (by rw [hzero, Nat.zero_add]) heq
        · exact broken_lt hg hu
      · exact (hin.later i _ e hlt hcur.inside hlater he).1
    obtain ⟨-, -, rfl⟩ | ⟨u, hu, -, hucount, -, rfl⟩ := hlast
    · exact absurd hbroken (lt_irrefl n)
    obtain ⟨-, rfl⟩ := hc.next_eq (i := i + u) (by omega) hy
    have hzero := hdata hbroken
    have hposition := hcur.position
    refine .inr (.inr ⟨i + u + 1, _, rfl, hucount, rfl, ?_, hpos, .inr ⟨rfl, ?_, ?_⟩, hmemory, hstored⟩)
    · simp only
      rw [Nat.add_assoc i, Nat.add_mul i]
      omega
    · obtain ⟨hi, -⟩ | ⟨-, hi, -⟩ := hcur.first
      · omega
      · omega
    · obtain ⟨hi, hbytes⟩ | ⟨-, -, hlater⟩ := hcur.first
      · rw [hbytes, Nat.zero_add] at heq ⊢
        rw [← hi]
        exact .first he heq hy
      · exact .next hlater he heq hy

end Stored

/-! ## Contents that show every transfer -/

/-- All bytes of the memory are ones. -/
def Ones (host : BlockHost σ) : Prop :=
  host.memory.bytes = fun _ => 1#8

/-- A memory of ones, and a disk of zeros. -/
def markedHost (p : σ) : BlockHost σ :=
  ⟨⟨fun _ => 1#8, []⟩, fun _ => 0#8, p⟩

section Marked

variable {so : ℕ} {e : Extent} {cur : Cursor σ} {host' : BlockHost σ}

theorem Written.ones (h : Written v bufferAddress so e cur host') (hones : Ones cur.host) :
    Ones host' ∧ (∀ a, cur.host.disk a = 1#8 → host'.disk a = 1#8) ∧
      ∀ a, v.clusterAddress cur.cluster + so * v.bytesPerSector ≤ a →
        a < v.clusterAddress cur.cluster + so * v.bytesPerSector + e.size → host'.disk a = 1#8 := by
  rw [Ones] at hones
  refine ⟨by rw [Ones, h.memory, hones], fun a ha => ?_, fun a hlo hhi => ?_⟩
  · rw [h.disk]
    split_ifs
    · rw [hones]
    · exact ha
  · rw [h.disk, if_pos ⟨hlo, hhi⟩, hones]

/-- Ones on the disk stay there. -/
theorem writeLoop_ones (hg : v.Geometry) {m : ℕ} {r : Except Unit ℕ × BlockHost σ}
    (hcur : cur.dataOffset < v.bytesPerCluster) (hones : Ones cur.host)
    (h : loop (v.writeStep bufferAddress n) m cur = .ok r) {a : ℕ} (ha : cur.host.disk a = 1#8) :
    r.2.disk a = 1#8 := by
  have hpos := hg.bytesPerCluster_pos
  have hstep : ∀ {s : Cursor σ} {o : Iter (Cursor σ) (Except Unit ℕ × BlockHost σ)},
      s.dataOffset < v.bytesPerCluster → Ones s.host → s.host.disk a = 1#8 →
      v.writeStep bufferAddress n s = .ok o →
      (∃ r, o = .done r ∧ r.2.disk a = 1#8) ∨
        ∃ s', o = .next s' ∧ s'.dataOffset = 0 ∧ Ones s'.host ∧ s'.host.disk a = 1#8 := by
    intro s o hs hones ha ho
    obtain ⟨-, rfl⟩ | ⟨-, e, host', -, hwritten, -, rfl⟩ := writeStep_inv hg hs ho
    · exact .inl ⟨_, rfl, ha⟩
    · obtain ⟨hones', hkeep, -⟩ := hwritten.ones hones
      obtain ⟨r, hr⟩ | ⟨s', hs', hd, hhost⟩ := follow_cases n s e host'
      · exact .inl ⟨_, hr, hkeep a ha⟩
      · exact .inr ⟨s', hs', hd, by rwa [hhost], by rw [hhost]; exact hkeep a ha⟩
  refine loop_ok (I := fun s => s.dataOffset < v.bytesPerCluster ∧ Ones s.host ∧
      s.host.disk a = 1#8) (C := fun _ => True) (Q := fun r => r.2.disk a = 1#8) ?_ ?_ _ _
    ⟨hcur, hones, ha⟩ (throughout_true _ _) h
  · rintro s s' ⟨hs, ho, ha⟩ - hss
    obtain ⟨r, ho', -⟩ | ⟨s'', ho', hd, hones', ha'⟩ := hstep hs ho ha hss
    · cases ho'
    · cases ho'
      exact ⟨by omega, hones', ha'⟩
  · rintro s r ⟨hs, ho, ha⟩ - hss
    obtain ⟨r', ho', hr⟩ | ⟨s'', ho', -⟩ := hstep hs ho ha hss
    · cases ho'
      exact hr
    · cases ho'

/-- A loop that has returned has made its first transfer, and gone on behind it. -/
theorem writeLoop_first (hg : v.Geometry) {m : ℕ} {r : Except Unit ℕ × BlockHost σ}
    (hcur : cur.dataOffset < v.bytesPerCluster) (hones : Ones cur.host)
    (h : loop (v.writeStep bufferAddress n) m cur = .ok r)
    (hzero : (v.skipOffset cur.dataOffset).2 = 0)
    (he : v.extent n 0 v.bytesPerSector cur.cluster = some e) :
    (∀ a, v.clusterAddress cur.cluster + cur.dataOffset ≤ a →
      a < v.clusterAddress cur.cluster + cur.dataOffset + e.size → r.2.disk a = 1#8) ∧
    (n ≠ cur.bufferPointer + e.bytes → ∀ y, v.getNextCluster e.last = some y → ∃ m' host',
      Ones host' ∧ loop (v.writeStep bufferAddress n) m'
        ⟨0, y, cur.bufferPointer + e.bytes, host'⟩ = .ok r) := by
  have hpos := hg.bytesPerCluster_pos
  have hinv : ∀ {o : Iter (Cursor σ) (Except Unit ℕ × BlockHost σ)},
      v.writeStep bufferAddress n cur = .ok o → ∃ host',
        Written v bufferAddress (v.skipOffset cur.dataOffset).1 e cur host' ∧
        o = v.follow n cur e host' := by
    intro o ho
    obtain ⟨hno, -⟩ | ⟨-, e', host', he', hwritten, -, rfl⟩ := writeStep_inv hg hcur ho
    · obtain hne | hnone := hno
      · exact absurd hzero hne
      · rw [he] at hnone
        cases hnone
    · obtain rfl := Option.some.inj (he.symm.trans he')
      exact ⟨host', hwritten, rfl⟩
  obtain hdone | ⟨cur', m', -, hnext, hloop⟩ := loop_eq_ok h
  · obtain ⟨host', hwritten, hfollow⟩ := hinv hdone
    obtain ⟨-, -, hrange⟩ := hwritten.ones hones
    rw [skipOffset_sectors hg hcur hzero] at hrange
    obtain ⟨hhost, hend⟩ := follow_eq_done hfollow.symm
    rw [hhost]
    refine ⟨hrange, fun hn y hy => ?_⟩
    obtain ⟨hlast, -⟩ | ⟨hnone, -⟩ := hend
    · exact absurd hlast hn
    · cases hnone.symm.trans hy
  · obtain ⟨host', hwritten, hfollow⟩ := hinv hnext
    obtain ⟨hones', -, hrange⟩ := hwritten.ones hones
    rw [skipOffset_sectors hg hcur hzero] at hrange
    obtain ⟨y, hy, rfl⟩ := follow_eq_next hfollow.symm
    refine ⟨fun a hlo hhi => writeLoop_ones hg hpos hones' hloop (hrange a hlo hhi),
      fun _ y' hy' => ⟨m', host', hones', ?_⟩⟩
    obtain rfl := Option.some.inj (hy.symm.trans hy')
    exact hloop

end Marked

/-- If nothing else is touched on the disk of zeros, all transfers fit. -/
theorem fits_of_untouched (hg : v.Geometry) (hc : v.Chain file c count) (hn : 0 < n)
    (hend : offset + n ≤ count * v.bytesPerCluster)
    (hzero : (v.skipOffset (offset % v.bytesPerCluster)).2 = 0) {p : σ}
    {r : Except Unit ℕ × BlockHost σ}
    (h : loop (v.writeStep bufferAddress n) maxIterations ⟨offset % v.bytesPerCluster,
      c (offset / v.bytesPerCluster), 0, markedHost p⟩ = .ok r)
    (huntouched : v.Untouched c offset n (markedHost p) r.2) : v.WriteFits c count offset n := by
  have hpos := hg.bytesPerCluster_pos
  have hmod := Nat.mod_lt offset hpos
  have hskip : (v.skipOffset 0).2 = 0 := by rw [skipOffset_zero]
  have hones₀ : Ones (markedHost p) := rfl
  -- a range that was written is in the part of the file
  have hin : ∀ {address size : ℕ}, (∀ a, address ≤ a → a < address + size → r.2.disk a = 1#8) →
      v.InFile c offset n address size := by
    intro address size hrange a hlo hhi
    by_contra hnot
    have hzero := huntouched a fun q hq hq' heq => hnot ⟨q, hq, hq', heq⟩
    rw [hrange a hlo hhi] at hzero
    exact absurd hzero (by simp [markedHost])
  have hreached : ∀ {y bytes : ℕ}, v.Later n
      (v.extent n 0 v.bytesPerSector (c (offset / v.bytesPerCluster)))
      (v.extent n 0 v.bytesPerSector) y bytes → ∃ m host', Ones host' ∧
        loop (v.writeStep bufferAddress n) m ⟨0, y, bytes, host'⟩ = .ok r := by
    intro y bytes hlater
    induction hlater with
    | first he hne hy =>
      obtain ⟨-, hnext⟩ := writeLoop_first hg hmod hones₀ h hzero he
      rw [Nat.zero_add] at hnext
      exact hnext hne _ hy
    | next hlater he hne hy ih =>
      obtain ⟨m, host₁, hones, hloop⟩ := ih
      obtain ⟨-, hnext⟩ := writeLoop_first hg hpos hones hloop hskip he
      exact hnext hne _ hy
  refine ⟨fun e he => ?_, fun i bytes e hi hicount hlater he => ?_⟩
  · have hdvd : v.bytesPerSector ∣ offset % v.bytesPerCluster :=
      ⟨_, by rw [Nat.mul_comm]; exact (skipOffset_sectors hg hmod hzero).symm⟩
    obtain ⟨hrange, -⟩ := writeLoop_first hg hmod hones₀ h hzero he
    exact (inFile_first_iff hg hc hn hend hdvd he).mp (hin hrange)
  · obtain ⟨m, host', hones, hloop⟩ := hreached hlater
    obtain ⟨hrange, -⟩ := writeLoop_first hg hpos hones hloop hskip he
    exact (inFile_later_iff hg hc hn hend hi hicount he).mp (hin hrange)

/-- The loop returns for all contents of the memory and the disk, or for none. -/
theorem writeLoop_host {m : ℕ} {cur : Cursor σ} {r : Except Unit ℕ × BlockHost σ}
    (h : loop (v.writeStep bufferAddress n) m cur = .ok r) (host : BlockHost σ) :
    ∃ r', loop (v.writeStep bufferAddress n) m { cur with host } = .ok r' := by
  induction m generalizing cur host with
  | zero => cases h
  | succ m ih =>
    obtain hdone | ⟨cur', m', hm, hstep, hloop⟩ := loop_eq_ok h
    · obtain ⟨⟨r', hr'⟩, -⟩ | ⟨cur₁, host₁, ho, -⟩ := writeStep_host hdone host
      · exact ⟨r', loop_done hr' (Nat.succ_pos m)⟩
      · cases ho
    · obtain rfl : m = m' := by omega
      obtain ⟨-, r', ho⟩ | ⟨cur₁, host₁, ho, hnext⟩ := writeStep_host hstep host
      · cases ho
      · cases ho
        rw [loop_next hnext]
        exact ih hloop host₁

/-- Where the clusters of the file, the offset and the length may be so that nothing else is touched. -/
def WriteInside (v : Fat32) (file : FileInfo) (c : ℕ → ℕ) (count offset length : ℕ) : Prop :=
  0 < readLength file offset length → (v.skipOffset (offset % v.bytesPerCluster)).2 = 0 →
    v.WriteFits c count offset (readLength file offset length)

/-- The end of the range of a call that returns is computed without an overflow. -/
theorem write_stop_lt {length : ℕ} {host : BlockHost σ} {r : Except Unit ℕ × BlockHost σ}
    (h : v.write file bufferAddress offset length host = .ok r) : offset + length < 2 ^ 64 := by
  simp only [write, clampLength, Exec.bind_eq_ok, checkedAdd_eq_ok] at h
  obtain ⟨clamped, ⟨stop, ⟨hlt, -⟩, -⟩, -⟩ := h
  exact hlt

/-- A write that has something to write and returns is a run of the loop. -/
theorem write_loop (hg : v.Geometry) (hc : v.Chain file c count) {length : ℕ} (hlen : 1 ≤ length)
    (hn : 0 < readLength file offset length) {host : BlockHost σ} {r : Except Unit ℕ × BlockHost σ}
    (h : v.write file bufferAddress offset length host = .ok r) :
    loop (v.writeStep bufferAddress (readLength file offset length)) maxIterations
      ⟨offset % v.bytesPerCluster, c (offset / v.bytesPerCluster), 0, host⟩ = .ok r := by
  have hsum := write_stop_lt h
  rw [write_eq_readLength hg hc.toHasClusters hlen hsum hn] at h
  exact inside_eq_ok h

/-- A write with nothing to write leaves the disk as it is. -/
theorem write_empty (hg : v.Geometry) {length : ℕ} {host : BlockHost σ} {r : Except Unit ℕ × BlockHost σ}
    (hzero : readLength file offset length = 0)
    (h : v.write file bufferAddress offset length host = .ok r) : r.2 = host := by
  simp only [write, Exec.bind_eq_ok] at h
  obtain ⟨clamped, hclamp, h⟩ := h
  cases clamped with
  | none =>
    cases h
    rfl
  | some n =>
    have hn := clampLength_le hclamp
    rw [readLength] at hzero
    obtain rfl : n = 0 := by omega
    obtain ⟨-, rfl⟩ | ⟨cluster, -, hloop⟩ := transfer_inv (inside_eq_ok h)
    · rfl
    -- Less than a sector is refused.
    have hnone : v.extent 0 0 v.bytesPerSector cluster = none := by
      rw [extent, Nat.zero_sub, Nat.zero_div, extentFrom, if_pos]
      rw [Nat.zero_mul]
      exact hg.sectorPos
    have hstep : ∀ {o}, v.writeStep bufferAddress 0 ⟨offset % v.bytesPerCluster, cluster, 0, host⟩ =
        .ok o →
        o = .done (.error (), host) := by
      intro o ho
      obtain ⟨-, rfl⟩ | ⟨-, e, host', he, -⟩ := writeStep_inv hg (Nat.mod_lt _ hg.bytesPerCluster_pos) ho
      · rfl
      · cases hnone.symm.trans he
    obtain hdone | ⟨cur, m', -, hnext, -⟩ := loop_eq_ok hloop
    · cases hstep hdone
      rfl
    · cases hstep hnext

/-- Where the clusters of the file, the offset and the length may be so that the bytes are stored in
the file, and nothing else is touched. -/
def Writable (v : Fat32) (file : FileInfo) (c : ℕ → ℕ) (count offset length : ℕ) : Prop :=
  0 < readLength file offset length → (v.skipOffset (offset % v.bytesPerCluster)).2 = 0 →
    v.WriteInOrder c count offset (readLength file offset length)

theorem Writable.inside {length : ℕ} (h : v.Writable file c count offset length) :
    v.WriteInside file c count offset length :=
  fun hn hzero => (h hn hzero).fits

/-- A write whose transfers fit changes only the bytes it is asked to change. -/
theorem write_untouched (hg : v.Geometry) (hc : v.Chain file c count) {length : ℕ} (hlen : 1 ≤ length)
    (hinside : v.WriteInside file c count offset length) {host : BlockHost σ}
    {r : Except Unit ℕ × BlockHost σ} (h : v.write file bufferAddress offset length host = .ok r) :
    v.Untouched c offset (readLength file offset length) host r.2 := by
  by_cases hn : 0 < readLength file offset length
  · exact untouched_of_fits hg hc hn ((readLength_le hn).2.trans hc.long) (hinside hn)
      (write_loop hg hc hlen hn h)
  · rw [write_empty hg (by omega) h]
    exact fun a _ => rfl

/-- A write changes only the bytes it is asked to change, whatever they are, exactly if its
transfers fit. -/
theorem write_untouched_iff (hg : v.Geometry) (hc : v.Chain file c count) {length : ℕ}
    (hlen : 1 ≤ length) {host : BlockHost σ} {r : Except Unit ℕ × BlockHost σ}
    (h : v.write file bufferAddress offset length host = .ok r) :
    (∀ (host' : BlockHost σ) r', v.write file bufferAddress offset length host' = .ok r' →
        v.Untouched c offset (readLength file offset length) host' r'.2) ↔
      v.WriteInside file c count offset length := by
  refine ⟨fun hall hn hzero => ?_, fun hinside host' r' h' => write_untouched hg hc hlen hinside h'⟩
  obtain ⟨r', hr'⟩ := writeLoop_host (write_loop hg hc hlen hn h) (markedHost host.pages)
  refine fits_of_untouched hg hc hn ((readLength_le hn).2.trans hc.long) hzero hr' (hall _ r' ?_)
  rw [write_eq_readLength hg hc.toHasClusters hlen (write_stop_lt h) hn]
  exact congrArg inside hr'

/-- One cluster of two sectors. -/
def twoSectors : Fat32 :=
  { stepVolume 1 2 with sectorsPerCluster := 2 }

theorem twoSectors_geometry : twoSectors.Geometry := by
  constructor <;> simp [twoSectors, stepVolume]

theorem twoSectors_chain : twoSectors.Chain ⟨2, 1024⟩ (fun i => 2 + i) 1 := by
  refine ⟨⟨rfl, by omega, by omega, by decide, by decide, fun i hi => ?_⟩, rfl⟩
  simp only [twoSectors, stepVolume]
  omega

theorem write_untouched_iff_sector :
    ∃ r, twoSectors.write ⟨2, 1024⟩ 0x40000000 0 512 blankHost = .ok r ∧
      ((∀ (host' : BlockHost Unit) r',
          twoSectors.write ⟨2, 1024⟩ 0x40000000 0 512 host' = .ok r' →
          twoSectors.Untouched (fun i => 2 + i) 0 512 host' r'.2) ↔
        twoSectors.WriteInside ⟨2, 1024⟩ (fun i => 2 + i) 1 0 512) := by
  have hr : ∃ r, twoSectors.write ⟨2, 1024⟩ 0x40000000 0 512 blankHost = .ok r := ⟨_, rfl⟩
  obtain ⟨r, hr⟩ := hr
  exact ⟨r, hr, write_untouched_iff twoSectors_geometry twoSectors_chain (by decide) hr⟩

/-- A write of 600 bytes changes the whole second sector. -/
theorem write_touches_more :
    twoSectors.Geometry ∧ twoSectors.Chain ⟨2, 1024⟩ (fun i => 2 + i) 1 ∧
      ∃ (host : BlockHost Unit) (r : Except Unit ℕ × BlockHost Unit),
        twoSectors.write ⟨2, 1024⟩ 0x40000000 0 600 host = .ok r ∧
        ¬twoSectors.Untouched (fun i => 2 + i) 0 600 host r.2 := by
  refine ⟨twoSectors_geometry, twoSectors_chain, markedHost (), _, rfl, fun h => ?_⟩
  have hbyte := h (twoSectors.clusterAddress 2 + 600) fun p _ hp => by
    have hdiv : p / twoSectors.bytesPerCluster = 0 := Nat.div_eq_of_lt (by
      simp only [twoSectors, stepVolume, bytesPerCluster]
      omega)
    have hmod : p % twoSectors.bytesPerCluster = p := Nat.mod_eq_of_lt (by
      simp only [twoSectors, stepVolume, bytesPerCluster]
      omega)
    rw [fileAddress, hdiv, hmod]
    change twoSectors.clusterAddress 2 + 600 ≠ twoSectors.clusterAddress 2 + p
    omega
  exact absurd hbyte (by decide)

end Fat32

end MiniVisor
