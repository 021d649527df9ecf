import MiniVisor.Fat32ReadFrame
import MiniVisor.Fat32WriteFrame

/-!
# What a transfer passes through

A call of `Fat32::read` or `Fat32::write` that stops at an overflow check has already moved the
sectors of the transfers before. `ReadPasses` and `WritePasses` are the memories that a call leaves
behind itself on its way, whether it returns in the end or not; `read_passes` and `write_passes` say
that the memory behind a call that returns is one of them.

`ReadPasses.staysInside` and `WritePasses.confined` are about all of them : if the whole sectors of
every transfer end in front of a limit (`ReadWithin`, `WriteWithin`), nothing else is accessed or
changed, apart from the bounce buffers of a read. -/

namespace MiniVisor

open Machine

namespace Fat32

variable {v : Fat32} {σ : Type} {pages : Pages σ} {file : FileInfo}
    {bufferAddress offset length limit n : ℕ}
  {host : BlockHost σ} {cur : Cursor σ} {m : Memory}

/-! ## The way of a call -/

/-- The outer loop of a call comes to this state, with `n` bytes to transfer. -/
structure TransferReaches (v : Fat32)
    (step : ℕ → Cursor σ → Exec (Iter (Cursor σ) (Except Unit ℕ × BlockHost σ))) (file : FileInfo)
    (offset length : ℕ) (host : BlockHost σ) (n : ℕ) (cur : Cursor σ) : Prop where
  clamp : clampLength file offset length = .ok (some n)
  reached : ∃ cluster, v.skipClusters (offset / v.bytesPerCluster) file.entryCluster = some cluster ∧
    Reaches (step n) ⟨offset % v.bytesPerCluster, cluster, 0, host⟩ cur

/-- The memories that a read passes through : with the sectors in the bounce buffer and not copied yet, and
behind each transfer. -/
inductive ReadPasses (v : Fat32) (pages : Pages σ) (file : FileInfo) (bufferAddress offset length : ℕ)
    (host : BlockHost σ) : Memory → Prop
  | bounce {n : ℕ} {cur : Cursor σ} {run : Run} {count buffer sector : ℕ} {p : σ} {r : Except Unit Unit}
      {host' : BlockHost σ}
      (hcur : v.TransferReaches (v.readStep pages bufferAddress) file offset length host n cur)
      (hrun : loop (v.runStep n) maxIterations (.start cur.cluster cur.dataOffset) = .ok (.ok run))
      (halloc : pages.allocatePages count 0 cur.host.pages = (some buffer, p))
      (hread : v.readSectors buffer sector run.sectors true { cur.host with pages := p } = .ok
        (r, host')) :
      ReadPasses v pages file bufferAddress offset length host host'.memory
  | transferred {n : ℕ} {cur : Cursor σ} {run : Run} {r : Except Unit Unit} {host' : BlockHost σ}
      (hcur : v.TransferReaches (v.readStep pages bufferAddress) file offset length host n cur)
      (hrun : loop (v.runStep n) maxIterations (.start cur.cluster cur.dataOffset) = .ok (.ok run))
      (hread : v.readRun pages bufferAddress cur run = .ok (r, host')) :
      ReadPasses v pages file bufferAddress offset length host host'.memory

/-- The memories that a write passes through : behind each transfer. -/
inductive WritePasses (v : Fat32) (file : FileInfo) (bufferAddress offset length : ℕ)
    (host : BlockHost σ) :
    Memory → Prop
  | transferred {n : ℕ} {cur : Cursor σ} {run : Run} {sector : ℕ} {r : Except Unit Unit}
      {host' : BlockHost σ}
      (hcur : v.TransferReaches (v.writeStep bufferAddress) file offset length host n cur)
      (hrun : loop (v.writeRunStep n) maxIterations (.start cur.cluster cur.dataOffset) = .ok (.ok run))
      (hbackup : run.dataOffsetBackup = 0)
      (hwrite : v.writeSectors (bufferAddress + cur.bufferPointer) sector run.sectors cur.host =
        .ok (r, host')) :
      WritePasses v file bufferAddress offset length host host'.memory

/-- The host behind an iteration. -/
def IterHost (o : Iter (Cursor σ) (Except Unit ℕ × BlockHost σ)) (host : BlockHost σ) : Prop :=
  (∃ r, o = .done (r, host)) ∨ ∃ cur, o = .next cur ∧ cur.host = host

theorem nextRun_host {run : Run} {o : Iter (Cursor σ) (Except Unit ℕ × BlockHost σ)}
    (h : v.nextRun n cur run host = .ok o) : IterHost o host := by
  rw [nextRun_eq h]
  obtain ⟨r, hr⟩ | ⟨cur', hr, -, hhost⟩ :=
    follow_cases n cur ⟨run.sectors * v.bytesPerSector, run.bytes, run.cluster⟩ host
  · exact .inl ⟨r, hr⟩
  · exact .inr ⟨cur', hr, hhost⟩

/-- An iteration of a read leaves the memory as it is, or behind a transfer. -/
theorem readStep_passes
    (hcur : v.TransferReaches (v.readStep pages bufferAddress) file offset length host n cur)
    {o : Iter (Cursor σ) (Except Unit ℕ × BlockHost σ)}
    (h : v.readStep pages bufferAddress n cur = .ok o) :
    ∃ host', IterHost o host' ∧ (host' = cur.host ∨
      v.ReadPasses pages file bufferAddress offset length host host'.memory) := by
  rw [readStep, Exec.bind_eq_ok] at h
  obtain ⟨r, hrun, h⟩ := h
  cases r with
  | error u =>
    cases h
    exact ⟨cur.host, .inl ⟨_, rfl⟩, .inl rfl⟩
  | ok run =>
    simp only [Exec.bind_eq_ok] at h
    obtain ⟨⟨r, host'⟩, hread, h⟩ := h
    refine ⟨host', ?_, .inr (.transferred hcur hrun hread)⟩
    cases r with
    | error u =>
      cases h
      exact .inl ⟨_, rfl⟩
    | ok u => exact nextRun_host h

theorem writeStep_passes
    (hcur : v.TransferReaches (v.writeStep bufferAddress) file offset length host n cur)
    {o : Iter (Cursor σ) (Except Unit ℕ × BlockHost σ)} (h : v.writeStep bufferAddress n cur = .ok o) :
    ∃ host', IterHost o host' ∧ (host' = cur.host ∨
      v.WritePasses file bufferAddress offset length host host'.memory) := by
  rw [writeStep, Exec.bind_eq_ok] at h
  obtain ⟨r, hrun, h⟩ := h
  cases r with
  | error u =>
    cases h
    exact ⟨cur.host, .inl ⟨_, rfl⟩, .inl rfl⟩
  | ok run =>
    dsimp only at h
    split_ifs at h with hbackup
    · cases h
      exact ⟨cur.host, .inl ⟨_, rfl⟩, .inl rfl⟩
    · simp only [Exec.bind_eq_ok, checkedAdd_eq_ok] at h
      obtain ⟨first, -, sector, -, buffer, ⟨-, rfl⟩, ⟨r, host'⟩, hwrite, h⟩ := h
      refine ⟨host', ?_, .inr (.transferred hcur hrun (not_not.mp hbackup) hwrite)⟩
      cases r with
      | error u =>
        cases h
        exact .inl ⟨_, rfl⟩
      | ok u => exact nextRun_host h

/-- A loop whose iterations leave the memory as it is, or pass through `P`, does so as a whole. -/
theorem loop_passes {step : ℕ → Cursor σ → Exec (Iter (Cursor σ) (Except Unit ℕ × BlockHost σ))}
    {P : Memory → Prop}
    (hstep : ∀ {n cur o}, v.TransferReaches step file offset length host n cur → step n cur = .ok o →
      ∃ host', IterHost o host' ∧ (host' = cur.host ∨ P host'.memory))
    {cluster fuel : ℕ} {r : Except Unit ℕ × BlockHost σ}
    (hclamp : clampLength file offset length = .ok (some n))
    (hcluster : v.skipClusters (offset / v.bytesPerCluster) file.entryCluster = some cluster)
    (h : loop (step n) fuel ⟨offset % v.bytesPerCluster, cluster, 0, host⟩ = .ok r) :
    r.2 = host ∨ P r.2.memory := by
  obtain ⟨cur, hreached, hdone⟩ := exists_reaches_done h
  have hpassed : cur.host = host ∨ P cur.host.memory := by
    clear hdone
    induction hreached with
    | refl => exact .inl rfl
    | @tail cur cur' hreached hnext ih =>
      obtain ⟨host', ⟨r', ho⟩ | ⟨cur'', ho, rfl⟩, hpassed⟩ :=
        hstep ⟨hclamp, cluster, hcluster, hreached⟩ hnext
      · cases ho
      · cases ho
        obtain heq | hp := hpassed
        · rwa [heq]
        · exact .inr hp
  obtain ⟨host', ⟨r', ho⟩ | ⟨cur', ho, -⟩, heq | hp⟩ := hstep ⟨hclamp, cluster, hcluster, hreached⟩ hdone
  · cases ho
    rwa [heq]
  · cases ho
    exact .inr hp
  · cases ho
  · cases ho

/-- A read that returns has passed through what it leaves. -/
theorem read_passes {r : Except Unit ℕ × BlockHost σ}
    (h : v.read pages file bufferAddress offset length host = .ok r) :
    r.2 = host ∨ v.ReadPasses pages file bufferAddress offset length host r.2.memory := by
  obtain ⟨hhost, -⟩ | ⟨n, cluster, hclamp, hcluster, hloop⟩ := read_inv h
  · exact .inl hhost
  · exact loop_passes (fun hcur ho => readStep_passes hcur ho) hclamp hcluster hloop

theorem write_passes {r : Except Unit ℕ × BlockHost σ}
    (h : v.write file bufferAddress offset length host = .ok r) :
    r.2 = host ∨ v.WritePasses file bufferAddress offset length host r.2.memory := by
  simp only [write, Exec.bind_eq_ok] at h
  obtain ⟨clamped, hclamp, h⟩ := h
  cases clamped with
  | none =>
    cases h
    exact .inl rfl
  | some n =>
    obtain ⟨-, rfl⟩ | ⟨cluster, hcluster, hloop⟩ := transfer_inv (inside_eq_ok h)
    · exact .inl rfl
    · exact loop_passes (fun hcur ho => writeStep_passes hcur ho) hclamp hcluster hloop

/-! ## The sectors of a transfer -/

/-- The sectors that a read transfers end in front of `limit`. -/
def ReadWithin (v : Fat32) (pages : Pages σ) (p : σ) (file : FileInfo) (offset length limit : ℕ) : Prop :=
  ∀ n cluster, clampLength file offset length = .ok (some n) →
    v.skipClusters (offset / v.bytesPerCluster) file.entryCluster = some cluster →
    n ≤ limit ∧ v.Fits pages p n (v.skipOffset (offset % v.bytesPerCluster)).2 cluster limit

/-- The sectors that a write transfers end in front of `limit`, unless it is refused. -/
def WriteWithin (v : Fat32) (file : FileInfo) (offset length limit : ℕ) : Prop :=
  ∀ n cluster, clampLength file offset length = .ok (some n) →
    v.skipClusters (offset / v.bytesPerCluster) file.entryCluster = some cluster →
    (v.skipOffset (offset % v.bytesPerCluster)).2 = 0 →
    (∀ e, v.extent n 0 v.bytesPerSector cluster = some e → e.size ≤ limit) ∧
    ∀ x bytes e, v.Later n (v.extent n 0 v.bytesPerSector cluster) (v.extent n 0 v.bytesPerSector)
      x bytes →
      v.extent n 0 v.bytesPerSector x = some e → bytes + e.size ≤ limit

/-- On its way a read stays inside of what its sectors need, and of its bounce buffer. -/
theorem ReadPasses.confined (hg : v.Geometry)
    (hends : v.ReadWithin pages host.pages file offset length limit)
    (h : v.ReadPasses pages file bufferAddress offset length host m) :
    host.memory.Confined (Set.Ico bufferAddress (bufferAddress + limit)) m := by
  have hmod := Nat.mod_lt offset hg.bytesPerCluster_pos
  -- the state that the loop comes to is inside
  have hreached : ∀ {n cur}, v.TransferReaches (v.readStep pages bufferAddress)
      file offset length host n cur →
      ∃ cluster, n ≤ limit ∧ v.Fits pages host.pages n (v.skipOffset (offset % v.bytesPerCluster)).2
        cluster limit ∧
        AtTransfer v pages n (offset % v.bytesPerCluster) cluster host cur ∧
        StaysInside pages bufferAddress limit host cur.host := by
    rintro n cur ⟨hclamp, cluster, hcluster, hreached⟩
    obtain ⟨hn, hfits⟩ := hends n cluster hclamp hcluster
    exact ⟨cluster, hn, hfits, reaches_staysInside hg hmod hn hfits hreached⟩
  cases h with
  | @bounce n cur run count buffer sector p r host' hcur hrun halloc hread =>
    obtain ⟨cluster, -, -, -, hinside⟩ := hreached hcur
    obtain ⟨address, ho⟩ := readSectors_inv hg hread
    cases ho
    have hfill : cur.host.memory.Confined (Set.Ico bufferAddress (bufferAddress + limit))
        (cur.host.memory.fill buffer (run.sectors * v.bytesPerSector) true fun i =>
          cur.host.disk (address + i)) := Memory.confined_fill_private
    exact hinside.confined.trans hfill
  | transferred hcur hrun hread =>
    obtain ⟨cluster, hn, hfits, hat, hinside⟩ := hreached hcur
    obtain ⟨he, hbackup, -⟩ := readRun_found hg (hat.dataOffset_lt hg hmod) hrun
    obtain ⟨-, -, p, rfl, -⟩ | ⟨-, htransfer⟩ := readRun_inv hg hread
    · exact hinside.confined
    · rw [hbackup] at htransfer
      exact (hat.staysInside hg hmod hn hfits hinside he htransfer).confined

theorem read_staysInside_of_within (hg : v.Geometry) {r : Except Unit ℕ × BlockHost σ}
    (h : v.read pages file bufferAddress offset length host = .ok r)
    (hends : v.ReadWithin pages host.pages file offset length limit) :
    StaysInside pages bufferAddress limit host r.2 := by
  obtain ⟨hhost, -⟩ | ⟨n, cluster, hclamp, hcluster, hloop⟩ := read_inv h
  · rw [hhost]
    exact StaysInside.refl pages bufferAddress limit host host.pages
  · obtain ⟨hn, hfits⟩ := hends n cluster hclamp hcluster
    exact staysInside_of_fits hg (Nat.mod_lt _ hg.bytesPerCluster_pos) hn hfits hloop

/-- The first iteration of a write, or a later transfer of one that was not refused. -/
def AtWriteTransfer (v : Fat32) (n d₀ x : ℕ) (host : BlockHost σ) (cur : Cursor σ) : Prop :=
  cur = ⟨d₀, x, 0, host⟩ ∨ cur.dataOffset = 0 ∧ (v.skipOffset d₀).2 = 0 ∧
    v.Later n (v.extent n 0 v.bytesPerSector x) (v.extent n 0 v.bytesPerSector)
      cur.cluster cur.bufferPointer

section Write

variable {cluster : ℕ} (hg : v.Geometry) (hends : v.WriteWithin file offset length limit)
  (hclamp : clampLength file offset length = .ok (some n))
  (hcluster : v.skipClusters (offset / v.bytesPerCluster) file.entryCluster = some cluster)

theorem AtWriteTransfer.dataOffset_lt (hg : v.Geometry)
    (hcur : v.AtWriteTransfer n (offset % v.bytesPerCluster) cluster host cur) :
    cur.dataOffset < v.bytesPerCluster := by
  obtain rfl | ⟨hzero, -⟩ := hcur
  · exact Nat.mod_lt _ hg.bytesPerCluster_pos
  · rw [hzero]
    exact hg.bytesPerCluster_pos

include hends hclamp hcluster

/-- The transfer that comes next ends in front of the limit. -/
theorem AtWriteTransfer.size_le (hcur : v.AtWriteTransfer n (offset % v.bytesPerCluster) cluster host cur)
    (hskip : (v.skipOffset cur.dataOffset).2 = 0) {e : Extent}
    (he : v.extent n 0 v.bytesPerSector cur.cluster = some e) : cur.bufferPointer + e.size ≤ limit := by
  have hends := hends n cluster hclamp hcluster
  obtain rfl | ⟨-, hfirst, hlater⟩ := hcur
  · simpa using (hends hskip).1 e he
  · exact (hends hfirst).2 _ _ e hlater he

include hg

/-- The states that the loop comes to. -/
theorem reaches_atWriteTransfer
    (h : Reaches (v.writeStep bufferAddress n) ⟨offset % v.bytesPerCluster, cluster, 0, host⟩ cur) :
    v.AtWriteTransfer n (offset % v.bytesPerCluster) cluster host cur ∧
      host.memory.Confined (Set.Ico bufferAddress (bufferAddress + limit)) cur.host.memory := by
  induction h with
  | refl => exact ⟨.inl rfl, .refl _ _⟩
  | @tail cur cur' _ hnext ih =>
    obtain ⟨hcur, hconfined⟩ := ih
    obtain ⟨-, ho⟩ | ⟨hskip, e, host', he, -, hmemory, ho⟩ := writeStep_inv hg
      (hcur.dataOffset_lt hg) hnext
    · cases ho
    have hsize := hcur.size_le hends hclamp hcluster hskip he
    rw [follow] at ho
    split_ifs at ho with hn
    cases hy : v.getNextCluster e.last with
    | none =>
      rw [hy] at ho
      cases ho
    | some y =>
      rw [hy] at ho
      cases ho
      refine ⟨.inr ⟨rfl, ?_⟩, hconfined.trans ?_⟩
      · obtain rfl | ⟨-, hfirst, hlater⟩ := hcur
        · simp only [Nat.zero_add] at hn ⊢
          exact ⟨hskip, .first he hn hy⟩
        · exact ⟨hfirst, .next hlater he hn hy⟩
      · rw [hmemory]
        exact Memory.confined_touch fun _ => Set.Ico_subset_Ico (by omega) (by omega)

end Write

/-- On its way a write stays inside of what its sectors need. -/
theorem WritePasses.confined (hg : v.Geometry) (hends : v.WriteWithin file offset length limit)
    (h : v.WritePasses file bufferAddress offset length host m) :
    host.memory.Confined (Set.Ico bufferAddress (bufferAddress + limit)) m := by
  cases h with
  | @transferred n cur run sector r host' hcur hrun hbackup hwrite =>
    obtain ⟨hclamp, cluster, hcluster, hreached⟩ := hcur
    obtain ⟨hat, hconfined⟩ := reaches_atWriteTransfer hg hends hclamp hcluster hreached
    obtain ⟨-, hne⟩ | ⟨hskip, he, -⟩ := writeRun_found hg (hat.dataOffset_lt hg) hrun
    · exact absurd hbackup (hne _ rfl)
    · have hsize : cur.bufferPointer + run.sectors * v.bytesPerSector ≤ limit :=
        hat.size_le hends hclamp hcluster hskip he
      refine hconfined.trans ?_
      rw [(writeSectors_inv hg hwrite).2.1]
      exact Memory.confined_touch fun _ => Set.Ico_subset_Ico (by omega) (by omega)

end Fat32

end MiniVisor
