import MiniVisor.Fat32Read

/-!
# What one transfer covers

The inner loops of `Fat32::read` and `Fat32::write` take as many clusters at once as are adjacent.
`extent` is what they find, as a function of the table : the size of the transfer in whole sectors, how
many bytes of it are counted, and the last cluster. It always asks for the length of the whole request,
also behind the first transfer. `Later` are the places where further transfers begin.

Nothing is assumed of the clusters here : the results are about loops that have returned.
-/

namespace MiniVisor

open Machine

namespace Fat32

/-- One transfer : its size, the bytes that are counted, and its last cluster. -/
structure Extent where
  size : ℕ
  bytes : ℕ
  last : ℕ
  deriving DecidableEq, Repr

variable (v : Fat32)

/-- The size of `m` bytes in whole sectors, of which there is at least one. -/
def roundUp (m : ℕ) : ℕ :=
  (1 + (max m 1 - 1) / v.bytesPerSector) * v.bytesPerSector

/-- The extent with up to `more` clusters behind `cluster`, where `t` are in front of it. `d` bytes of the
first sector are not counted. A rest of less than `least` bytes is refused. -/
def extentFrom (n d least : ℕ) : ℕ → ℕ → ℕ → Option Extent
  | 0, t, cluster =>
    if n + d - t * v.bytesPerCluster < least then none else some ⟨v.roundUp (n + d), n, cluster⟩
  | more + 1, t, cluster =>
    (v.getNextCluster cluster).bind fun next =>
      if next = cluster + 1 then extentFrom n d least more (t + 1) next
      else some ⟨(t + 1) * v.bytesPerCluster, (t + 1) * v.bytesPerCluster - d, cluster⟩

/-- What a transfer of `n` bytes covers that begins at `cluster`; `none` if the clusters end before. -/
def extent (n d least cluster : ℕ) : Option Extent :=
  v.extentFrom n d least ((n + d - 1) / v.bytesPerCluster) 0 cluster

/-- A further transfer begins at `cluster` after `bytes` bytes : the transfer before has not ended with the
`n`-th byte, and its last cluster has a successor. -/
inductive Later (n : ℕ) (first : Option Extent) (run : ℕ → Option Extent) : ℕ → ℕ → Prop
  | first {e : Extent} {cluster : ℕ} : first = some e → n ≠ e.bytes →
      v.getNextCluster e.last = some cluster → Later n first run cluster e.bytes
  | next {x bytes cluster : ℕ} {e : Extent} : Later n first run x bytes → run x = some e →
      n ≠ bytes + e.bytes → v.getNextCluster e.last = some cluster →
      Later n first run cluster (bytes + e.bytes)

variable {v} {n d so t x : ℕ}

/-! ## The inner loop -/

/-- The state of the inner loop at the cluster `x`, after `t` clusters. -/
def runAt (v : Fat32) (so d t x : ℕ) : Run :=
  v.runAfter (fun _ => x) 0 so d t

/-- The sectors of the last cluster complete those of the whole length. -/
theorem sectors_last (hg : v.Geometry) (ht : t = 0 ∨ t * v.bytesPerCluster < n + d) :
    (t * v.sectorsPerCluster + (1 + (max (n + d - t * v.bytesPerCluster) 1 - 1) / v.bytesPerSector)) *
      v.bytesPerSector = v.roundUp (n + d) := by
  obtain rfl | ht := ht
  · rw [roundUp, Nat.zero_mul, Nat.zero_mul, Nat.sub_zero, Nat.zero_add]
  · have hsum : n + d - 1 = n + d - t * v.bytesPerCluster - 1 +
        t * v.sectorsPerCluster * v.bytesPerSector := by
      rw [Nat.mul_assoc, ← bytesPerCluster]
      omega
    rw [roundUp, max_eq_left (by omega), max_eq_left (by omega), hsum,
      Nat.add_mul_div_right _ _ hg.sectorPos]
    congr 1
    omega

/-- What an iteration of the inner loop can do. -/
theorem runStep_runAt (hg : v.Geometry) (hd : d ≤ v.bytesPerSector)
    (ht : t = 0 ∨ t * v.bytesPerCluster < n + d) {o : Iter Run (Except Unit Run)}
    (h : v.runStep n (v.runAt so d t x) = .ok o) :
    (n + d ≤ (t + 1) * v.bytesPerCluster ∧ ∃ run, o = .done (.ok run) ∧
        run.sectors * v.bytesPerSector = v.roundUp (n + d) ∧ run.bytes = n ∧ run.cluster = x ∧
        run.dataOffsetBackup = d ∧ run.sectorOffset = so) ∨
      ((t + 1) * v.bytesPerCluster < n + d ∧
        ((v.getNextCluster x = none ∧ o = .done (.error ())) ∨ ∃ y, v.getNextCluster x = some y ∧
          ((y = x + 1 ∧ o = .next (v.runAt so d (t + 1) y)) ∨
            (y ≠ x + 1 ∧ ∃ run, o = .done (.ok run) ∧
              run.sectors * v.bytesPerSector = (t + 1) * v.bytesPerCluster ∧
              run.bytes = (t + 1) * v.bytesPerCluster - d ∧ run.cluster = x ∧
              run.dataOffsetBackup = d ∧ run.sectorOffset = so)))) := by
  have hle : v.bytesPerSector ≤ v.bytesPerCluster := Nat.le_mul_of_pos_left _ hg.clusterPos
  have hB : v.bytesPerCluster < 2 ^ 8 * 2 ^ 16 := Nat.mul_lt_mul'' hg.clusterLt hg.sectorLt
  have hexp : (t + 1) * v.bytesPerCluster = t * v.bytesPerCluster + v.bytesPerCluster := by ring
  have htle : t * v.bytesPerCluster ≤ n + d := by
    obtain rfl | ht := ht
    · simp
    · exact ht.le
  obtain ⟨hbytes, hleft⟩ := left_runAfter (fun _ => x) 0 n so t hg hd htle
  rw [runAt, runStep, skipSectors_runAfter hd, Exec.ok_bind, checkedSub_of_le hbytes,
    Exec.ok_bind] at h
  simp only [Exec.bind_eq_ok, checkedAdd_eq_ok, hleft] at h
  obtain ⟨left, ⟨-, rfl⟩, h⟩ := h
  split_ifs at h with hlast
  · left
    simp only [Exec.bind_eq_ok, checkedAdd_eq_ok, checkedDiv_eq_ok] at h
    obtain ⟨q, ⟨-, rfl⟩, more, ⟨-, rfl⟩, sectors, ⟨-, rfl⟩, rest, ⟨-, rfl⟩, bytes, ⟨-, rfl⟩, h⟩ := h
    have hdiv := Nat.div_le_self (max (n + d - t * v.bytesPerCluster) 1 - 1) v.bytesPerSector
    rw [Nat.mod_eq_of_lt (by omega)] at h
    refine ⟨by omega, _, (Except.ok.inj h).symm, sectors_last hg ht, ?_, rfl, rfl, rfl⟩
    exact Nat.add_sub_of_le hbytes
  · right
    have hwhole : (v.runAfter (fun _ => x) 0 so d t).bytes +
        (v.bytesPerCluster - (v.runAfter (fun _ => x) 0 so d t).dataOffset) =
          (t + 1) * v.bytesPerCluster - d := by
      simp only [runAfter]
      split_ifs with h0
      · subst h0
        omega
      · have := Nat.le_mul_of_pos_left v.bytesPerCluster (Nat.pos_of_ne_zero h0)
        omega
    have hsectors : (v.runAfter (fun _ => x) 0 so d t).sectors + v.sectorsPerCluster =
        (t + 1) * v.sectorsPerCluster := by
      simp only [runAfter]
      ring
    simp only [Exec.bind_eq_ok, checkedSub_eq_ok, checkedAdd_eq_ok] at h
    obtain ⟨sectors, ⟨-, rfl⟩, whole, ⟨-, rfl⟩, bytes, ⟨-, rfl⟩, h⟩ := h
    rw [hwhole, hsectors] at h
    refine ⟨by omega, ?_⟩
    have hcluster : (v.runAfter (fun _ => x) 0 so d t).cluster = x := rfl
    rw [hcluster] at h
    cases hy : v.getNextCluster x with
    | none =>
      rw [hy] at h
      exact .inl ⟨rfl, (Except.ok.inj h).symm⟩
    | some y =>
      simp only [hy, Exec.bind_eq_ok, checkedAdd_eq_ok] at h
      obtain ⟨adjacent, ⟨-, rfl⟩, h⟩ := h
      refine .inr ⟨y, rfl, ?_⟩
      split_ifs at h with hne
      · refine .inr ⟨hne, _, (Except.ok.inj h).symm, ?_, rfl, rfl, rfl, rfl⟩
        rw [Nat.mul_assoc, ← bytesPerCluster]
      · refine .inl ⟨not_not.mp hne, ?_⟩
        rw [← Except.ok.inj h]
        simp [runAt, runAfter]

/-- The inner loop has found the extent. -/
def FindsExtent (v : Fat32) (so d : ℕ) (e : Option Extent) : Except Unit Run → Prop
  | .error _ => e = none
  | .ok run => e = some ⟨run.sectors * v.bytesPerSector, run.bytes, run.cluster⟩ ∧
      run.dataOffsetBackup = d ∧ run.sectorOffset = so

/-- The inner loop finds the extent. `body` is that of `Fat32::read`, or that of `Fat32::write`, which
refuses a rest of less than a sector. -/
theorem runLoop_extent (least : ℕ) (hg : v.Geometry) (hd : d ≤ v.bytesPerSector)
    {body : Run → Exec (Iter Run (Except Unit Run))}
    (hbody : ∀ t y o, t ≤ (n + d - 1) / v.bytesPerCluster → body (v.runAt so d t y) = .ok o →
      (t = (n + d - 1) / v.bytesPerCluster ∧ n + d - t * v.bytesPerCluster < least ∧
        o = .done (.error ())) ∨
      (¬(t = (n + d - 1) / v.bytesPerCluster ∧ n + d - t * v.bytesPerCluster < least) ∧
        v.runStep n (v.runAt so d t y) = .ok o))
    {r : Except Unit Run} (h : loop body maxIterations (v.runAt so d 0 x) = .ok r) :
    v.FindsExtent so d (v.extent n d least x) r := by
  have hpos := hg.bytesPerCluster_pos
  set T := (n + d - 1) / v.bytesPerCluster with hT
  have hTle : T * v.bytesPerCluster ≤ n + d - 1 := Nat.div_mul_le_self _ _
  have hThi : n + d ≤ (T + 1) * v.bytesPerCluster := by
    have := Nat.lt_div_mul_add hpos (a := n + d - 1)
    rw [← hT] at this
    rw [Nat.add_mul, Nat.one_mul]
    omega
  -- `t` clusters are behind, and the rest of the extent is still to be found
  have hstep : ∀ {t y : ℕ} {o : Iter Run (Except Unit Run)}, t ≤ T →
      body (v.runAt so d t y) = .ok o →
      (∃ r, o = .done r ∧ v.FindsExtent so d (v.extentFrom n d least (T - t) t y) r) ∨
        (t < T ∧ o = .next (v.runAt so d (t + 1) (y + 1)) ∧
          v.extentFrom n d least (T - t) t y = v.extentFrom n d least (T - (t + 1)) (t + 1) (y + 1)) := by
    intro t y o ht hs
    have htle : t * v.bytesPerCluster ≤ T * v.bytesPerCluster := Nat.mul_le_mul_right _ ht
    obtain ⟨rfl, hless, rfl⟩ | ⟨hmore, hs⟩ := hbody t y o ht hs
    · refine .inl ⟨_, rfl, ?_⟩
      rw [Nat.sub_self, extentFrom, if_pos hless]
      rfl
    have ht0 : t = 0 ∨ t * v.bytesPerCluster < n + d := by
      obtain rfl | htpos := Nat.eq_zero_or_pos t
      · exact .inl rfl
      · have := Nat.mul_pos htpos hpos
        right
        omega
    obtain ⟨hlast, run, rfl, hsize, hbytes, hcluster, hbackup, hso⟩ | ⟨hmany, hs⟩ :=
      runStep_runAt hg hd ht0 hs
    · have heq : t = T := by
        by_contra hne
        have : (t + 1) * v.bytesPerCluster ≤ T * v.bytesPerCluster := Nat.mul_le_mul_right _ (by omega)
        have : 0 < (t + 1) * v.bytesPerCluster := Nat.mul_pos (by omega) hpos
        omega
      subst heq
      refine .inl ⟨_, rfl, ?_, hbackup, hso⟩
      rw [Nat.sub_self, extentFrom, if_neg fun hless => hmore ⟨rfl, hless⟩, hsize, hbytes, hcluster]
    · have hlt : t < T := by
        have : (t + 1) * v.bytesPerCluster < (T + 1) * v.bytesPerCluster := by omega
        have := Nat.lt_of_mul_lt_mul_right this
        omega
      obtain ⟨m, hm⟩ : ∃ m, T - t = m + 1 := ⟨T - t - 1, by omega⟩
      have hm' : T - (t + 1) = m := by omega
      rw [hm, hm', extentFrom]
      obtain ⟨hnone, rfl⟩ | ⟨z, hz, ⟨rfl, rfl⟩ | ⟨hne, run, rfl, hsize, hbytes, hcluster, hbackup,
        hso⟩⟩ := hs
      · refine .inl ⟨_, rfl, ?_⟩
        rw [hnone]
        rfl
      · refine .inr ⟨hlt, rfl, ?_⟩
        rw [hz, Option.bind_some, if_pos rfl]
      · refine .inl ⟨_, rfl, ?_, hbackup, hso⟩
        rw [hz, Option.bind_some, if_neg hne, hsize, hbytes, hcluster]
  refine loop_ok (I := fun s => ∃ t y, t ≤ T ∧ s = v.runAt so d t y ∧
      v.extentFrom n d least (T - t) t y = v.extent n d least x) (C := fun _ => True)
    (Q := v.FindsExtent so d (v.extent n d least x)) ?_ ?_ _ _ ⟨0, x, Nat.zero_le _, rfl, rfl⟩
    (throughout_true _ _) h
  · rintro s s' ⟨t, y, ht, rfl, heq⟩ - hs
    obtain ⟨r, ho, -⟩ | ⟨hlt, ho, hnext⟩ := hstep ht hs
    · cases ho
    · cases ho
      exact ⟨t + 1, y + 1, hlt, rfl, hnext.symm.trans heq⟩
  · rintro s r ⟨t, y, ht, rfl, heq⟩ - hs
    obtain ⟨r', ho, hfound⟩ | ⟨-, ho, -⟩ := hstep ht hs
    · cases ho
      rwa [heq] at hfound
    · cases ho

/-- Where the whole sectors of an offset end : the sectors that are skipped, and the bytes that are left.
An offset of one sector is left as it is. -/
def skipOffset (v : Fat32) (dataOffset : ℕ) : ℕ × ℕ :=
  if v.bytesPerSector < dataOffset then
    (dataOffset / v.bytesPerSector, dataOffset % v.bytesPerSector)
  else (0, dataOffset)

/-- The first step takes the whole sectors off the offset. -/
theorem runStep_skipOffset (hg : v.Geometry) (n x : ℕ) {dataOffset : ℕ}
    (hd : dataOffset < v.bytesPerCluster) :
    v.runStep n (.start x dataOffset) =
        v.runStep n (v.runAt (v.skipOffset dataOffset).1 (v.skipOffset dataOffset).2 0 x) ∧
      (v.skipOffset dataOffset).2 ≤ v.bytesPerSector ∧
      dataOffset = (v.skipOffset dataOffset).1 * v.bytesPerSector + (v.skipOffset dataOffset).2 := by
  obtain ⟨so, d, hd, hsum, hsmall, hzero, -, hstart⟩ := runStep_start n (fun _ => x) 0 hg hd
  have hskip : v.skipOffset dataOffset = (so, d) := by
    rw [skipOffset]
    split_ifs with hlt
    · have hd' : d < v.bytesPerSector := hsmall.resolve_left fun h0 => by
        rw [h0] at hsum
        omega
      rw [hsum, Nat.add_comm, Nat.add_mul_div_right _ _ hg.sectorPos, Nat.add_mul_mod_self_right,
        Nat.div_eq_of_lt hd', Nat.mod_eq_of_lt hd', Nat.zero_add]
    · have h0 := hzero (by omega)
      rw [h0] at hsum ⊢
      rw [hsum, Nat.zero_mul, Nat.zero_add]
  rw [hskip]
  exact ⟨hstart, hd, hsum⟩

/-- The bytes that are counted are in the sectors, and not more than are asked for. -/
theorem extentFrom_bytes (hg : v.Geometry) (hd : d ≤ v.bytesPerCluster) {least : ℕ} :
    ∀ {more t x : ℕ} {e : Extent}, t + more ≤ (n + d - 1) / v.bytesPerCluster →
      v.extentFrom n d least more t x = some e → e.bytes + d ≤ e.size ∧ e.bytes ≤ n
  | 0, t, x, e, _, h => by
    rw [extentFrom] at h
    split_ifs at h
    rw [← Option.some.inj h, roundUp, Nat.add_mul, Nat.one_mul]
    have := Nat.lt_div_mul_add hg.sectorPos (a := max (n + d) 1 - 1)
    exact ⟨by simp only; omega, le_rfl⟩
  | more + 1, t, x, e, ht, h => by
    rw [extentFrom, Option.bind_eq_some_iff] at h
    obtain ⟨y, -, h⟩ := h
    split_ifs at h
    · exact extentFrom_bytes hg hd (by omega) h
    · have hmono : (t + 1) * v.bytesPerCluster ≤ (n + d - 1) / v.bytesPerCluster * v.bytesPerCluster :=
        Nat.mul_le_mul_right _ (by omega)
      have hle := Nat.div_mul_le_self (n + d - 1) v.bytesPerCluster
      have hpos : v.bytesPerCluster ≤ (t + 1) * v.bytesPerCluster :=
        Nat.le_mul_of_pos_left _ (by omega)
      rw [← Option.some.inj h]
      exact ⟨by simp only; omega, by simp only; omega⟩

theorem extent_bytes (hg : v.Geometry) (hd : d ≤ v.bytesPerCluster) {least : ℕ} {e : Extent}
    (h : v.extent n d least x = some e) : e.bytes + d ≤ e.size ∧ e.bytes ≤ n :=
  extentFrom_bytes hg hd (by omega) h

theorem extentFrom_size_pos (hg : v.Geometry) {least : ℕ} : ∀ {more t x : ℕ} {e : Extent},
    v.extentFrom n d least more t x = some e → 0 < e.size
  | 0, t, x, e, h => by
    rw [extentFrom] at h
    split_ifs at h
    rw [← Option.some.inj h]
    exact Nat.mul_pos (Nat.add_pos_left Nat.one_pos _) hg.sectorPos
  | more + 1, t, x, e, h => by
    rw [extentFrom, Option.bind_eq_some_iff] at h
    obtain ⟨y, -, h⟩ := h
    split_ifs at h
    · exact extentFrom_size_pos hg h
    · rw [← Option.some.inj h]
      exact Nat.mul_pos (by omega) hg.bytesPerCluster_pos

theorem extent_size_pos (hg : v.Geometry) {least : ℕ} {e : Extent}
    (h : v.extent n d least x = some e) : 0 < e.size :=
  extentFrom_size_pos hg h

theorem skipOffset_zero : v.skipOffset 0 = (0, 0) := by
  rw [skipOffset, if_neg (Nat.not_lt_zero _)]

theorem skipOffset_le (hg : v.Geometry) {dataOffset : ℕ} (hd : dataOffset < v.bytesPerCluster) :
    (v.skipOffset dataOffset).2 ≤ v.bytesPerCluster := by
  have hle : v.bytesPerSector ≤ v.bytesPerCluster := Nat.le_mul_of_pos_left _ hg.clusterPos
  have := (runStep_skipOffset hg 0 0 hd).2.1
  omega

section

variable {σ : Type} {host : BlockHost σ}

/-- What follows a transfer. -/
def follow (v : Fat32) (n : ℕ) (cur : Cursor σ) (e : Extent) (host : BlockHost σ) :
    Iter (Cursor σ) (Except Unit ℕ × BlockHost σ) :=
  if n = cur.bufferPointer + e.bytes then .done (.ok n, host)
  else match v.getNextCluster e.last with
    | none => .done (.error (), host)
    | some y => .next ⟨0, y, cur.bufferPointer + e.bytes, host⟩

theorem nextRun_eq {cur : Cursor σ} {run : Run} {o : Iter (Cursor σ) (Except Unit ℕ × BlockHost σ)}
    (h : v.nextRun n cur run host = .ok o) :
    o = v.follow n cur ⟨run.sectors * v.bytesPerSector, run.bytes, run.cluster⟩ host := by
  simp only [nextRun, Exec.bind_eq_ok, checkedAdd_eq_ok] at h
  obtain ⟨bytes, ⟨-, rfl⟩, h⟩ := h
  rw [follow]
  split_ifs at h ⊢ with hn
  · rw [← hn] at h
    exact (Except.ok.inj h).symm
  · cases hy : v.getNextCluster run.cluster with
    | none =>
      rw [hy] at h
      exact (Except.ok.inj h).symm
    | some y =>
      rw [hy] at h
      exact (Except.ok.inj h).symm

theorem follow_cases (n : ℕ) (cur : Cursor σ) (e : Extent) (host' : BlockHost σ) :
    (∃ r, v.follow n cur e host' = .done (r, host')) ∨
      ∃ cur', v.follow n cur e host' = .next cur' ∧ cur'.dataOffset = 0 ∧ cur'.host = host' := by
  rw [follow]
  split_ifs
  · exact .inl ⟨_, rfl⟩
  · cases v.getNextCluster e.last with
    | none => exact .inl ⟨_, rfl⟩
    | some y => exact .inr ⟨_, rfl, rfl, rfl⟩

/-- The loop ends behind the last byte, or where no cluster follows. -/
theorem follow_eq_done {n : ℕ} {cur : Cursor σ} {e : Extent} {host' : BlockHost σ}
    {r : Except Unit ℕ × BlockHost σ} (h : v.follow n cur e host' = .done r) :
    r.2 = host' ∧ (n = cur.bufferPointer + e.bytes ∧ r.1 = .ok n ∨
      v.getNextCluster e.last = none ∧ r.1 = .error ()) := by
  rw [follow] at h
  split_ifs at h with hn
  · cases h
    exact ⟨rfl, .inl ⟨hn, rfl⟩⟩
  · cases hy : v.getNextCluster e.last with
    | none =>
      rw [hy] at h
      cases h
      exact ⟨rfl, .inr ⟨rfl, rfl⟩⟩
    | some y =>
      rw [hy] at h
      cases h

theorem follow_eq_next {n : ℕ} {cur cur' : Cursor σ} {e : Extent} {host' : BlockHost σ}
    (h : v.follow n cur e host' = .next cur') :
    ∃ y, v.getNextCluster e.last = some y ∧ cur' = ⟨0, y, cur.bufferPointer + e.bytes, host'⟩ := by
  rw [follow] at h
  split_ifs at h with hn
  cases hy : v.getNextCluster e.last with
  | none =>
    rw [hy] at h
    cases h
  | some y =>
    rw [hy] at h
    cases h
    exact ⟨y, rfl, rfl⟩

/-- A transfer that has returned : the clusters up to the offset end before, or the loop has returned. -/
theorem transfer_inv
    {step : Cursor σ → Exec (Iter (Cursor σ) (Except Unit ℕ × BlockHost σ))} {file : FileInfo}
    {offset : ℕ} {r : Except Unit ℕ × BlockHost σ} (h : v.transfer step file offset host = .ok r) :
    (v.skipClusters (offset / v.bytesPerCluster) file.entryCluster = none ∧ r = (.error (), host)) ∨
      ∃ cluster, v.skipClusters (offset / v.bytesPerCluster) file.entryCluster = some cluster ∧
        loop step maxIterations ⟨offset % v.bytesPerCluster, cluster, 0, host⟩ = .ok r := by
  simp only [transfer, Exec.bind_eq_ok, checkedDiv_eq_ok, checkedMul_eq_ok, checkedSub_eq_ok] at h
  obtain ⟨clusters, ⟨-, rfl⟩, skipped, ⟨-, rfl⟩, dataOffset, ⟨-, rfl⟩, h⟩ := h
  have hmod : offset - offset / v.bytesPerCluster * v.bytesPerCluster = offset % v.bytesPerCluster := by
    have := Nat.div_add_mod' offset v.bytesPerCluster
    omega
  rw [hmod] at h
  cases hc : v.skipClusters (offset / v.bytesPerCluster) file.entryCluster with
  | none =>
    rw [hc] at h
    exact .inl ⟨rfl, (Except.ok.inj h).symm⟩
  | some cluster =>
    rw [hc] at h
    exact .inr ⟨cluster, rfl, h⟩

theorem inside_eq_ok {α : Type} {y : Exec α} {a : α} (h : inside y = .ok a) : y = .ok a := by
  cases y with
  | error t => cases h
  | ok b => exact h

/-- The length of a transfer is not larger than what is asked for. -/
theorem clampLength_le {file : FileInfo} {offset length n : ℕ}
    (h : clampLength file offset length = .ok (some n)) :
    n ≤ length ∧ (n = length ∧ offset + length ≤ file.fileSize ∨
      n = file.fileSize - offset ∧ offset < file.fileSize) := by
  simp only [clampLength, Exec.bind_eq_ok, checkedAdd_eq_ok] at h
  obtain ⟨stop, ⟨-, rfl⟩, h⟩ := h
  split_ifs at h with h₁ h₂
  · cases h
  · cases h
    omega
  · cases h
    omega

end

end Fat32

end MiniVisor
