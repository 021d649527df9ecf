import MiniVisor.Fat32ReadFrame
import MiniVisor.Fat32WriteFrame

/-!
# How long a transfer takes

The loops of `Fat32::read` and `Fat32::write` end for every content of the table, cycles included :
an iteration of the inner loop counts the sectors of one more cluster in 32 bits, and one of the outer
loop counts at least one more byte in 64 bits, so a chain that goes on for ever ends at an overflow
check (`transfer_finishes`).

They may do more than they are asked for. The outer loop stops when the bytes that it has counted are
the length, and each run asks for the whole length again. Behind a run that was broken off, the
count can pass over the length. `runsFit_iff` says for which chains it does not.
-/

namespace MiniVisor

open Machine

namespace Fat32

variable {v : Fat32} {σ : Type} {pages : Pages σ} {file : FileInfo} {bufferAddress offset n : ℕ}

/-! ## The inner loops end -/

theorem finishes_skipSectors (run : Run) : (v.skipSectors run).Finishes := by
  refine Exec.finishes_ite ?_ (Exec.finishes_ok _)
  refine (finishes_checkedDiv _ _).bind fun quotient _ => ?_
  refine (finishes_checkedMul _ _ _).bind fun skipped _ => ?_
  exact (finishes_checkedSub _ _).bind fun dataOffset _ => Exec.finishes_ok _

theorem finishes_runStep (run : Run) : (v.runStep n run).Finishes := by
  refine (finishes_skipSectors run).bind fun run _ => ?_
  refine (finishes_checkedSub _ _).bind fun left _ => ?_
  refine (finishes_checkedAdd _ _ _).bind fun left _ => ?_
  refine Exec.finishes_ite ?_ ?_
  · refine (finishes_checkedDiv _ _).bind fun quotient _ => ?_
    refine (finishes_checkedAdd _ _ _).bind fun more _ => ?_
    refine (finishes_checkedAdd _ _ _).bind fun sectors _ => ?_
    refine (finishes_checkedSub _ _).bind fun rest _ => ?_
    exact (finishes_checkedAdd _ _ _).bind fun bytes _ => Exec.finishes_ok _
  · refine (finishes_checkedAdd _ _ _).bind fun sectors _ => ?_
    refine (finishes_checkedSub _ _).bind fun whole _ => ?_
    refine (finishes_checkedAdd _ _ _).bind fun bytes _ => ?_
    cases v.getNextCluster run.cluster with
    | none => exact Exec.finishes_ok _
    | some nextCluster =>
      refine (finishes_checkedAdd _ _ _).bind fun adjacent _ => ?_
      exact Exec.finishes_ite (Exec.finishes_ok _) (Exec.finishes_ok _)

theorem finishes_writeRunStep (run : Run) : (v.writeRunStep n run).Finishes :=
  (finishes_checkedSub _ _).bind fun _ _ =>
    Exec.finishes_ite (Exec.finishes_ok _) (finishes_runStep run)

/-- Skipping sectors changes no count. -/
theorem skipSectors_inv {run run' : Run} (h : v.skipSectors run = .ok run') :
    run'.dataOffset ≤ run.dataOffset ∧ run'.sectors = run.sectors ∧ run'.bytes = run.bytes := by
  unfold skipSectors at h
  split_ifs at h
  · simp only [Exec.bind_eq_ok, checkedSub_eq_ok] at h
    obtain ⟨quotient, -, skipped, -, dataOffset, ⟨-, rfl⟩, h⟩ := h
    cases h
    exact ⟨Nat.sub_le _ _, rfl, rfl⟩
  · cases h
    exact ⟨le_rfl, rfl, rfl⟩

/-- An iteration counts a whole cluster and goes on, or leaves with some of the bytes. -/
theorem runStep_grows {run : Run} (hd : run.dataOffset < v.bytesPerCluster)
    {o : Iter Run (Except Unit Run)} (h : v.runStep n run = .ok o) :
    o = .done (.error ()) ∨ (∃ run', o = .done (.ok run') ∧ min n 1 ≤ run'.bytes ∧ run'.bytes ≤ n) ∨
      ∃ run', o = .next run' ∧ run'.sectors = run.sectors + v.sectorsPerCluster ∧
        run'.sectors < 2 ^ 32 ∧ run'.dataOffset < v.bytesPerCluster := by
  simp only [runStep, Exec.bind_eq_ok] at h
  obtain ⟨run₁, hskip, left, hleft, left', hleft', h⟩ := h
  obtain ⟨hle, hsectors, hbytes⟩ := skipSectors_inv hskip
  obtain ⟨hleft, rfl⟩ := checkedSub_eq_ok.mp hleft
  obtain ⟨-, rfl⟩ := checkedAdd_eq_ok.mp hleft'
  split_ifs at h with hlast
  · simp only [Exec.bind_eq_ok, checkedSub_eq_ok, checkedAdd_eq_ok] at h
    obtain ⟨q, -, more, -, sectors, -, rest, ⟨-, rfl⟩, bytes, ⟨-, rfl⟩, h⟩ := h
    exact .inr (.inl ⟨_, (Except.ok.inj h).symm, by simp only; omega⟩)
  · simp only [Exec.bind_eq_ok, checkedSub_eq_ok, checkedAdd_eq_ok] at h
    obtain ⟨sectors, ⟨hlt, rfl⟩, whole, ⟨-, rfl⟩, bytes, ⟨-, rfl⟩, h⟩ := h
    cases hy : v.getNextCluster run₁.cluster with
    | none =>
      rw [hy] at h
      exact .inl (Except.ok.inj h).symm
    | some y =>
      rw [hy] at h
      simp only [Exec.bind_eq_ok] at h
      obtain ⟨adjacent, -, h⟩ := h
      split_ifs at h
      · exact .inr (.inl ⟨_, (Except.ok.inj h).symm, by simp only; omega⟩)
      · exact .inr (.inr ⟨_, (Except.ok.inj h).symm, by simp only; omega, by simp only; omega,
          by simp only; omega⟩)

/-- What the bodies of both inner loops have in common. -/
structure RunBody (v : Fat32) (n : ℕ) (body : Run → Exec (Iter Run (Except Unit Run))) : Prop where
  finishes : ∀ run, (body run).Finishes
  grows : ∀ {run o}, run.dataOffset < v.bytesPerCluster → body run = .ok o →
    o = .done (.error ()) ∨ (∃ run', o = .done (.ok run') ∧ min n 1 ≤ run'.bytes ∧ run'.bytes ≤ n) ∨
      ∃ run', o = .next run' ∧ run'.sectors = run.sectors + v.sectorsPerCluster ∧
        run'.sectors < 2 ^ 32 ∧ run'.dataOffset < v.bytesPerCluster

theorem runBody_runStep : RunBody v n (v.runStep n) :=
  ⟨finishes_runStep, fun hd h => runStep_grows hd h⟩

theorem runBody_writeRunStep : RunBody v n (v.writeRunStep n) := by
  refine ⟨finishes_writeRunStep, fun hd h => ?_⟩
  obtain ⟨-, ⟨-, rfl⟩ | ⟨-, h⟩⟩ := writeRunStep_inv h
  · exact .inl rfl
  · exact runStep_grows hd h

section

variable {body : Run → Exec (Iter Run (Except Unit Run))} {cluster dataOffset : ℕ}

theorem RunBody.loop_finishes (hb : RunBody v n body) (hd : dataOffset < v.bytesPerCluster) :
    (loop body maxIterations (.start cluster dataOffset)).Finishes := by
  have hspc : 0 < v.sectorsPerCluster := by
    have : 0 < v.sectorsPerCluster * v.bytesPerSector := by
      rw [← bytesPerCluster]
      omega
    exact Nat.pos_of_mul_pos_right this
  refine Machine.loop_finishes (I := fun run => run.dataOffset < v.bytesPerCluster ∧
    run.sectors < 2 ^ 32) (fun run => 2 ^ 32 - run.sectors) (fun run _ => hb.finishes run)
    (fun run run' hI h => ?_) maxIterations _ ⟨hd, by simp [Run.start]⟩
    (by simp [Run.start, maxIterations])
  obtain ho | ⟨_, ho, -⟩ | ⟨_, ho, hsectors, hlt, hd'⟩ := hb.grows hI.1 h
  · cases ho
  · cases ho
  · cases ho
    exact ⟨⟨hd', hlt⟩, by omega⟩

/-- A run has some of the bytes, and at least one if there are any. -/
theorem RunBody.bytes_le (hb : RunBody v n body) (hd : dataOffset < v.bytesPerCluster) {m : ℕ}
    {run : Run} (h : loop body m (.start cluster dataOffset) = .ok (.ok run)) :
    min n 1 ≤ run.bytes ∧ run.bytes ≤ n := by
  refine loop_ok (I := fun s => s.dataOffset < v.bytesPerCluster) (C := fun _ => True)
    (Q := fun r => ∀ run, r = .ok run → min n 1 ≤ run.bytes ∧ run.bytes ≤ n) ?_ ?_ _ _ hd
    (throughout_true _ _) h run rfl
  · rintro s s' hs - ho
    obtain ho | ⟨_, ho, -⟩ | ⟨_, ho, -, -, hd'⟩ := hb.grows hs ho
    · cases ho
    · cases ho
    · cases ho
      exact hd'
  · rintro s r hs - ho run rfl
    obtain ho | ⟨_, ho, hbytes⟩ | ⟨_, ho, -⟩ := hb.grows hs ho
    · cases ho
    · cases ho
      exact hbytes
    · cases ho

end

/-! ## The outer loops end -/

theorem finishes_clusterToSector (cluster : ℕ) : (v.clusterToSector cluster).Finishes := by
  refine (finishes_checkedMul _ _ _).bind fun fats _ => ?_
  refine (finishes_checkedAdd _ _ _).bind fun first _ => ?_
  refine (finishes_checkedSub _ _).bind fun index _ => ?_
  refine (finishes_checkedMul _ _ _).bind fun sectors _ => ?_
  exact finishes_checkedAdd _ _ _

theorem finishes_sectorAddress (sector : ℕ) : (v.sectorAddress sector).Finishes := by
  refine (finishes_checkedMul _ _ _).bind fun base _ => ?_
  refine (finishes_checkedMul _ _ _).bind fun offset _ => ?_
  exact finishes_checkedAdd _ _ _

theorem finishes_readSectors (buffer sector sectors : ℕ) (isPrivate : Bool) (host : BlockHost σ) :
    (v.readSectors buffer sector sectors isPrivate host).Finishes :=
  (finishes_sectorAddress _).bind fun _ _ => (finishes_checkedMul _ _ _).bind fun _ _ =>
    Exec.finishes_ok _

theorem finishes_writeSectors (buffer sector sectors : ℕ) (host : BlockHost σ) :
    (v.writeSectors buffer sector sectors host).Finishes :=
  (finishes_sectorAddress _).bind fun _ _ => (finishes_checkedMul _ _ _).bind fun _ _ =>
    Exec.finishes_ok _

theorem finishes_readRun (cur : Cursor σ) (run : Run) :
    (v.readRun pages bufferAddress cur run).Finishes := by
  refine (finishes_checkedMul _ _ _).bind fun size _ => ?_
  refine (finishes_checkedSub _ _).bind fun lbaMask _ => ?_
  refine (finishes_checkedAdd _ _ _).bind fun alignedBufferSize _ => ?_
  refine Exec.finishes_ite ?_ ?_
  · dsimp only
    split
    · exact Exec.finishes_ok _
    · refine (finishes_clusterToSector _).bind fun first _ => ?_
      refine (finishes_checkedAdd _ _ _).bind fun sector _ => ?_
      refine (finishes_readSectors _ _ _ _ _).bind fun q _ => ?_
      obtain ⟨r, host⟩ := q
      cases r with
      | error e => exact Exec.finishes_ok _
      | ok u =>
        refine (finishes_assert _).bind fun _ _ => ?_
        exact (finishes_checkedAdd _ _ _).bind fun source _ => Exec.finishes_ok _
  · refine (finishes_checkedAdd _ _ _).bind fun buffer _ => ?_
    refine (finishes_clusterToSector _).bind fun first _ => ?_
    refine (finishes_checkedAdd _ _ _).bind fun sector _ => ?_
    exact finishes_readSectors _ _ _ _ _

theorem finishes_nextRun (cur : Cursor σ) (run : Run) (host : BlockHost σ) :
    (v.nextRun n cur run host).Finishes := by
  refine (finishes_checkedAdd _ _ _).bind fun bufferPointer _ => ?_
  refine Exec.finishes_ite (Exec.finishes_ok _) ?_
  cases v.getNextCluster run.cluster with
  | none => exact Exec.finishes_ok _
  | some cluster => exact Exec.finishes_ok _

theorem nextRun_next {cur cur' : Cursor σ} {run : Run} {host : BlockHost σ}
    (h : v.nextRun n cur run host = .ok (.next cur')) :
    n ≠ cur'.bufferPointer ∧ cur'.dataOffset = 0 ∧
      cur'.bufferPointer = cur.bufferPointer + run.bytes ∧ cur'.bufferPointer < 2 ^ 64 := by
  simp only [nextRun, Exec.bind_eq_ok, checkedAdd_eq_ok] at h
  obtain ⟨bufferPointer, ⟨hlt, rfl⟩, h⟩ := h
  split_ifs at h with hne
  · cases h
  · cases hy : v.getNextCluster run.cluster with
    | none =>
      rw [hy] at h
      cases h
    | some y =>
      rw [hy] at h
      cases h
      exact ⟨hne, rfl, rfl, hlt⟩

/-- What the bodies of both outer loops have in common. -/
structure TransferBody (v : Fat32) (n : ℕ) (step : Cursor σ → Exec (Iter (Cursor σ)
    (Except Unit ℕ × BlockHost σ))) : Prop where
  finishes : ∀ cur, cur.dataOffset < v.bytesPerCluster → (step cur).Finishes
  grows : ∀ {cur cur'}, cur.dataOffset < v.bytesPerCluster → (n = 0 → cur.bufferPointer = 0) →
    step cur = .ok (.next cur') → n ≠ 0 ∧ cur'.dataOffset = 0 ∧
      cur.bufferPointer < cur'.bufferPointer ∧ cur'.bufferPointer < 2 ^ 64

theorem transferBody_readStep :
    TransferBody v n (v.readStep (σ := σ) pages bufferAddress n) where
  finishes cur hcur := by
    refine (runBody_runStep.loop_finishes hcur).bind fun r _ => ?_
    cases r with
    | error e => exact Exec.finishes_ok _
    | ok run =>
      refine (finishes_readRun cur run).bind fun q _ => ?_
      obtain ⟨r, host⟩ := q
      cases r with
      | error e => exact Exec.finishes_ok _
      | ok u => exact finishes_nextRun cur run host
  grows {cur cur'} hcur hzero h := by
    simp only [readStep, Exec.bind_eq_ok] at h
    obtain ⟨r, hr, h⟩ := h
    cases r with
    | error e => cases h
    | ok run =>
      have hbytes := runBody_runStep.bytes_le hcur hr
      simp only [Exec.bind_eq_ok] at h
      obtain ⟨⟨r, host⟩, -, h⟩ := h
      cases r with
      | error e => cases h
      | ok u =>
        obtain ⟨hne, hd, hsum, hlt⟩ := nextRun_next h
        exact ⟨by omega, hd, by omega, hlt⟩

theorem transferBody_writeStep :
    TransferBody v n (v.writeStep (σ := σ) bufferAddress n) where
  finishes cur hcur := by
    refine (runBody_writeRunStep.loop_finishes hcur).bind fun r _ => ?_
    cases r with
    | error e => exact Exec.finishes_ok _
    | ok run =>
      refine Exec.finishes_ite (Exec.finishes_ok _) ?_
      refine (finishes_clusterToSector _).bind fun first _ => ?_
      refine (finishes_checkedAdd _ _ _).bind fun sector _ => ?_
      refine (finishes_checkedAdd _ _ _).bind fun buffer _ => ?_
      refine (finishes_writeSectors _ _ _ _).bind fun q _ => ?_
      obtain ⟨r, host⟩ := q
      cases r with
      | error e => exact Exec.finishes_ok _
      | ok u => exact finishes_nextRun cur run host
  grows {cur cur'} hcur hzero h := by
    simp only [writeStep, Exec.bind_eq_ok] at h
    obtain ⟨r, hr, h⟩ := h
    cases r with
    | error e => cases h
    | ok run =>
      have hbytes := runBody_writeRunStep.bytes_le hcur hr
      dsimp only at h
      split_ifs at h
      · cases h
      · simp only [Exec.bind_eq_ok] at h
        obtain ⟨first, -, sector, -, buffer, -, ⟨r, host⟩, -, h⟩ := h
        cases r with
        | error e => cases h
        | ok u =>
          obtain ⟨hne, hd, hsum, hlt⟩ := nextRun_next h
          exact ⟨by omega, hd, by omega, hlt⟩

/-- The loops end, whatever the table says. -/
theorem TransferBody.transfer_finishes {step : Cursor σ → Exec (Iter (Cursor σ)
    (Except Unit ℕ × BlockHost σ))} (hb : TransferBody v n step) (host : BlockHost σ) :
    (v.transfer step file offset host).Finishes := by
  refine (finishes_checkedDiv _ _).bind fun clusters hdiv => ?_
  obtain ⟨hpos, rfl⟩ := checkedDiv_eq_ok.mp hdiv
  refine (finishes_checkedMul _ _ _).bind fun skipped hmul => ?_
  obtain ⟨-, rfl⟩ := checkedMul_eq_ok.mp hmul
  refine (finishes_checkedSub _ _).bind fun dataOffset hsub => ?_
  obtain ⟨-, rfl⟩ := checkedSub_eq_ok.mp hsub
  have hlt : offset - offset / v.bytesPerCluster * v.bytesPerCluster < v.bytesPerCluster := by
    have := Nat.lt_div_mul_add (Nat.pos_of_ne_zero hpos) (a := offset)
    omega
  cases v.skipClusters (offset / v.bytesPerCluster) file.entryCluster with
  | none => exact Exec.finishes_ok _
  | some cluster =>
    refine loop_finishes (I := fun cur => cur.dataOffset < v.bytesPerCluster ∧
      (n = 0 → cur.bufferPointer = 0)) (fun cur => 2 ^ 64 - 1 - cur.bufferPointer)
      (fun cur hI => hb.finishes cur hI.1) (fun cur cur' hI h => ?_) maxIterations _
      ⟨hlt, fun _ => rfl⟩ (by simp [maxIterations])
    obtain ⟨hn, hd, hgt, hlt'⟩ := hb.grows hI.1 hI.2 h
    exact ⟨⟨by omega, fun h0 => absurd h0 hn⟩, by omega⟩

theorem halts_inside {α : Type} {x : Exec α} (h : x.Finishes) : (inside x).Halts := by
  cases x with
  | error t => exact Exec.halts_error (by simp) (by simpa [Exec.Finishes] using h)
  | ok a => exact Exec.halts_ok a

theorem halts_clampLength (file : FileInfo) (offset length : ℕ) :
    (clampLength file offset length).Halts :=
  (halts_checkedAdd _ _ _).bind fun _ _ => Exec.halts_ite
    (Exec.halts_ite (Exec.halts_ok _) (Exec.halts_ok _)) (Exec.halts_ok _)

/-- `Fat32::read` comes to an end for every chain and every length. -/
theorem halts_read (pages : Pages σ) (file : FileInfo) (bufferAddress offset length : ℕ)
    (host : BlockHost σ) : (v.read pages file bufferAddress offset length host).Halts := by
  refine (halts_clampLength _ _ _).bind fun r _ => ?_
  cases r with
  | none => exact Exec.halts_ok _
  | some n => exact halts_inside (transferBody_readStep.transfer_finishes host)

theorem halts_write (file : FileInfo) (bufferAddress offset length : ℕ) (host : BlockHost σ) :
    (v.write file bufferAddress offset length host).Halts := by
  refine (halts_clampLength _ _ _).bind fun r _ => ?_
  cases r with
  | none => exact Exec.halts_ok _
  | some n => exact halts_inside (transferBody_writeStep.transfer_finishes host)

/-! ## The chain from a cluster on -/

section

variable {x₀ d least : ℕ}

/-- The chain goes from its cluster `i` to one that is not adjacent. -/
def Broken (v : Fat32) (x₀ i : ℕ) : Prop :=
  ∃ a b, v.skipClusters i x₀ = some a ∧ v.getNextCluster a = some b ∧ b ≠ a + 1

/-- Behind its cluster `i` the chain has `t` more that are adjacent. -/
def Joined (v : Fat32) (x₀ i t : ℕ) : Prop :=
  ∀ s < t, ∃ a, v.skipClusters (i + s) x₀ = some a ∧ v.getNextCluster a = some (a + 1)

theorem skipClusters_succ : ∀ (i x : ℕ), v.skipClusters (i + 1) x =
    (v.skipClusters i x).bind v.getNextCluster
  | 0, x => by
    rw [skipClusters, skipClusters, Option.bind_some]
    cases v.getNextCluster x <;> rfl
  | i + 1, x => by
    rw [skipClusters, skipClusters]
    cases v.getNextCluster x with
    | none => rfl
    | some y => exact skipClusters_succ i y

theorem Joined.not_broken {i t s : ℕ} (h : v.Joined x₀ i t) (hs : s < t) : ¬v.Broken x₀ (i + s) := by
  rintro ⟨a, b, ha, hb, hne⟩
  obtain ⟨a', ha', hb'⟩ := h s hs
  rw [ha] at ha'
  cases ha'
  rw [hb] at hb'
  exact hne (Option.some.inj hb')

/-- A chain that reaches its cluster `i + t` without a break has adjacent clusters. -/
theorem joined_of_not_broken {i t y : ℕ} (hy : v.skipClusters (i + t) x₀ = some y)
    (h : ∀ s < t, ¬v.Broken x₀ (i + s)) : v.Joined x₀ i t := by
  induction t generalizing y with
  | zero => exact fun s hs => absurd hs (Nat.not_lt_zero s)
  | succ t ih =>
    rw [← Nat.add_assoc, skipClusters_succ] at hy
    obtain ⟨a, ha, hay⟩ := Option.bind_eq_some_iff.mp hy
    have hprev := ih ha fun s hs => h s (by omega)
    intro s hs
    obtain hlt | rfl := Nat.lt_succ_iff_lt_or_eq.mp hs
    · exact hprev s hlt
    · refine ⟨a, ha, ?_⟩
      by_contra hne
      exact h s hs ⟨a, y, ha, hay, fun hc => hne (hc ▸ hay)⟩

/-- The transfer that begins at the cluster `i` of the chain ends in one of two ways : it has all its
bytes, or it is broken off. -/
theorem extentFrom_cases : ∀ {more t i a : ℕ} {e : Extent}, v.skipClusters i x₀ = some a →
    v.extentFrom n d least more t a = some e →
    (v.Joined x₀ i more ∧ ¬n + d - (t + more) * v.bytesPerCluster < least ∧
      v.skipClusters (i + more) x₀ = some e.last ∧ e.bytes = n) ∨
      ∃ s < more, v.Joined x₀ i s ∧ v.Broken x₀ (i + s) ∧
        v.skipClusters (i + s) x₀ = some e.last ∧ e.bytes = (t + s + 1) * v.bytesPerCluster - d
  | 0, t, i, a, e, ha, h => by
    rw [extentFrom] at h
    split_ifs at h with hless
    cases h
    exact .inl ⟨fun s hs => absurd hs (Nat.not_lt_zero s), hless, ha, rfl⟩
  | more + 1, t, i, a, e, ha, h => by
    rw [extentFrom, Option.bind_eq_some_iff] at h
    obtain ⟨y, hy, h⟩ := h
    have hnext : v.skipClusters (i + 1) x₀ = some y := by
      rw [skipClusters_succ, ha, Option.bind_some, hy]
    split_ifs at h with hadj
    · have hcons : ∀ {s}, v.Joined x₀ (i + 1) s → v.Joined x₀ i (s + 1) := by
        intro s hs r hr
        cases r with
        | zero => exact ⟨a, ha, hadj ▸ hy⟩
        | succ r => exact (Nat.add_right_comm i 1 r ▸ hs r (by omega) :)
      obtain ⟨hjoined, hless, hlast, hbytes⟩ | ⟨s, hs, hjoined, hbroken, hlast, hbytes⟩ :=
        extentFrom_cases hnext h
      · exact .inl ⟨hcons hjoined, by rwa [Nat.add_right_comm t 1, Nat.add_assoc] at hless,
          by rwa [Nat.add_right_comm i 1, Nat.add_assoc] at hlast, hbytes⟩
      · refine .inr ⟨s + 1, by omega, hcons hjoined, ?_, ?_, ?_⟩
        · rwa [Nat.add_right_comm i 1, Nat.add_assoc] at hbroken
        · rwa [Nat.add_right_comm i 1, Nat.add_assoc] at hlast
        · rwa [Nat.add_right_comm t 1, Nat.add_assoc t] at hbytes
    · cases h
      exact .inr ⟨0, by omega, fun s hs => absurd hs (Nat.not_lt_zero s), ⟨a, y, ha, hy, hadj⟩, ha, rfl⟩

/-- All the bytes of a transfer are in adjacent clusters. -/
theorem extentFrom_joined : ∀ {more t i a : ℕ}, v.skipClusters i x₀ = some a →
    v.Joined x₀ i more → ¬n + d - (t + more) * v.bytesPerCluster < least →
    ∃ e, v.extentFrom n d least more t a = some e ∧ e.bytes = n
  | 0, t, i, a, _, _, hless => ⟨_, if_neg hless, rfl⟩
  | more + 1, t, i, a, ha, h, hless => by
    obtain ⟨a', ha', hnext⟩ := h 0 (Nat.succ_pos more)
    rw [Nat.add_zero, ha] at ha'
    cases ha'
    have hy : v.skipClusters (i + 1) x₀ = some (a + 1) := by
      rw [skipClusters_succ, ha, Option.bind_some, hnext]
    rw [extentFrom, hnext, Option.bind_some, if_pos rfl]
    refine extentFrom_joined hy (fun s hs => ?_) ?_
    · have := h (s + 1) (by omega)
      rwa [← Nat.add_assoc, Nat.add_right_comm] at this
    · rwa [Nat.add_right_comm t 1, Nat.add_assoc]

/-- A transfer is broken off at the first break. -/
theorem extentFrom_broken (n d least : ℕ) : ∀ {more i a s : ℕ} (t : ℕ), v.skipClusters i x₀ =
    some a → s < more →
    v.Joined x₀ i s → v.Broken x₀ (i + s) →
    ∃ e, v.extentFrom n d least more t a = some e ∧ v.skipClusters (i + s) x₀ = some e.last ∧
      e.bytes = (t + s + 1) * v.bytesPerCluster - d
  | 0, i, a, s, t, _, hs, _, _ => absurd hs (Nat.not_lt_zero s)
  | more + 1, i, a, s, t, ha, hs, h, hbroken => by
    cases s with
    | zero =>
      obtain ⟨a', b, ha', hb, hne⟩ := hbroken
      rw [Nat.add_zero, ha] at ha'
      cases ha'
      rw [extentFrom, hb, Option.bind_some, if_neg hne]
      exact ⟨_, rfl, ha, rfl⟩
    | succ s =>
      obtain ⟨a', ha', hnext⟩ := h 0 (Nat.succ_pos s)
      rw [Nat.add_zero, ha] at ha'
      cases ha'
      have hy : v.skipClusters (i + 1) x₀ = some (a + 1) := by
        rw [skipClusters_succ, ha, Option.bind_some, hnext]
      rw [extentFrom, hnext, Option.bind_some, if_pos rfl]
      obtain ⟨e, he, hlast, hbytes⟩ := extentFrom_broken n d least (t + 1) hy (show s < more by omega)
        (fun r hr => by
          have := h (r + 1) (by omega)
          rwa [← Nat.add_assoc, Nat.add_right_comm] at this)
        (by rwa [Nat.add_right_comm i 1, Nat.add_assoc])
      refine ⟨e, he, ?_, ?_⟩
      · rwa [Nat.add_right_comm i 1, Nat.add_assoc] at hlast
      · rwa [Nat.add_right_comm t 1, Nat.add_assoc t] at hbytes

end

/-! ## What an iteration transfers -/

/-- The run that the inner loop of `Fat32::read` has found is transferred. -/
def ReadMoves (v : Fat32) (pages : Pages σ) (bufferAddress n : ℕ) (cur : Cursor σ) (e : Extent)
    (host : BlockHost σ) : Prop :=
  ∃ run, loop (v.runStep n) maxIterations (.start cur.cluster cur.dataOffset) = .ok (.ok run) ∧
    v.readRun pages bufferAddress cur run = .ok (.ok (), host) ∧
    e = ⟨run.sectors * v.bytesPerSector, run.bytes, run.cluster⟩

/-- The run that the inner loop of `Fat32::write` has found is transferred. -/
def WriteMoves (v : Fat32) (bufferAddress n : ℕ) (cur : Cursor σ) (e : Extent)
    (host : BlockHost σ) : Prop :=
  ∃ run first sector buffer,
    loop (v.writeRunStep n) maxIterations (.start cur.cluster cur.dataOffset) = .ok (.ok run) ∧
    run.dataOffsetBackup = 0 ∧ v.clusterToSector cur.cluster = .ok first ∧
    checkedAdd 32 first run.sectorOffset = .ok sector ∧
    checkedAdd 64 bufferAddress cur.bufferPointer = .ok buffer ∧
    v.writeSectors buffer sector run.sectors cur.host = .ok (.ok (), host) ∧
    e = ⟨run.sectors * v.bytesPerSector, run.bytes, run.cluster⟩

/-- The iterations of an outer loop, as far as the count depends on them. `free` says that nothing
keeps the run from being transferred. -/
structure Counts (v : Fat32) (n least : ℕ) (free : Cursor σ → Prop)
    (step : Cursor σ → Exec (Iter (Cursor σ) (Except Unit ℕ × BlockHost σ)))
    (moves : Cursor σ → Extent → BlockHost σ → Prop) : Prop where
  next : ∀ {cur cur'}, cur.dataOffset < v.bytesPerCluster → step cur = .ok (.next cur') →
    ∃ e host, moves cur e host ∧ v.follow n cur e host = .next cur'
  extent : ∀ {cur e host}, cur.dataOffset < v.bytesPerCluster → moves cur e host →
    v.extent n (v.skipOffset cur.dataOffset).2 least cur.cluster = some e
  goes : ∀ {cur e}, cur.dataOffset < v.bytesPerCluster → (step cur).Returns → free cur →
    v.extent n (v.skipOffset cur.dataOffset).2 least cur.cluster = some e →
    ∃ host, moves cur e host ∧ step cur = .ok (v.follow n cur e host)
  later : ∀ {cur}, cur.dataOffset = 0 → free cur

/-- A bounce buffer is there if one is needed. -/
def HasBounce (v : Fat32) (pages : Pages σ) (n : ℕ) (cur : Cursor σ) : Prop :=
  (v.skipOffset cur.dataOffset).2 ≠ 0 →
    ∀ e, v.extent n (v.skipOffset cur.dataOffset).2 0 cur.cluster = some e →
      (pages.allocatePages (v.bouncePages e.size) 0 cur.host.pages).1 ≠ none

theorem counts_readStep (hg : v.Geometry) : Counts v n 0 (v.HasBounce pages n)
    (v.readStep pages bufferAddress n) (v.ReadMoves pages bufferAddress n) where
  next {cur cur'} hcur h := by
    simp only [readStep, Exec.bind_eq_ok] at h
    obtain ⟨r, hr, h⟩ := h
    cases r with
    | error e => cases h
    | ok run =>
      simp only [Exec.bind_eq_ok] at h
      obtain ⟨⟨r, host⟩, hrun, h⟩ := h
      cases r with
      | error e => cases h
      | ok u => exact ⟨_, host, ⟨run, hr, hrun, rfl⟩, (nextRun_eq h).symm⟩
  extent {cur e host} hcur h := by
    obtain ⟨run, hr, -, rfl⟩ := h
    obtain ⟨hstart, hd, -⟩ := runStep_skipOffset hg n cur.cluster hcur
    rw [loop_congr hstart] at hr
    exact (runLoop_extent 0 hg hd (fun t y o _ ho => .inr ⟨by omega, ho⟩) hr).1
  goes {cur e} hcur hret hfree he := by
    obtain ⟨o, h⟩ := hret
    obtain ⟨hstart, hd, -⟩ := runStep_skipOffset hg n cur.cluster hcur
    have hcopy := h
    simp only [readStep, Exec.bind_eq_ok] at h
    obtain ⟨r, hr, h⟩ := h
    have hfound := runLoop_extent 0 hg hd (fun t y o _ ho => .inr ⟨by omega, ho⟩)
      (loop_congr hstart _ ▸ hr)
    rw [he] at hfound
    cases r with
    | error u => cases hfound
    | ok run =>
      obtain ⟨heq, hbackup, -⟩ := hfound
      cases heq
      simp only [Exec.bind_eq_ok] at h
      obtain ⟨⟨r, host⟩, hrun, h⟩ := h
      obtain ⟨hne, -, p, -, halloc⟩ | ⟨rfl, -⟩ := readRun_inv hg hrun
      · rw [hbackup] at hne
        have hsome := hfree hne _ he
        dsimp only at hsome
        rw [halloc] at hsome
        exact absurd rfl hsome
      · exact ⟨host, ⟨run, hr, hrun, rfl⟩, hcopy.trans (congrArg Except.ok (nextRun_eq h))⟩
  later {cur} h := by
    rw [HasBounce, h, skipOffset_zero]
    exact fun hc => absurd rfl hc

theorem counts_writeStep (hg : v.Geometry) : Counts v n v.bytesPerSector
    (fun cur : Cursor σ => (v.skipOffset cur.dataOffset).2 = 0)
    (v.writeStep bufferAddress n) (v.WriteMoves bufferAddress n) where
  next {cur cur'} hcur h := by
    simp only [writeStep, Exec.bind_eq_ok] at h
    obtain ⟨r, hr, h⟩ := h
    cases r with
    | error e => cases h
    | ok run =>
      dsimp only at h
      split_ifs at h with hbackup
      · cases h
      · simp only [Exec.bind_eq_ok] at h
        obtain ⟨first, hfirst, sector, hsector, buffer, hbuffer, ⟨r, host⟩, hwrite, h⟩ := h
        cases r with
        | error e => cases h
        | ok u =>
          exact ⟨_, host, ⟨run, first, sector, buffer, hr, not_not.mp hbackup, hfirst, hsector,
            hbuffer, hwrite, rfl⟩, (nextRun_eq h).symm⟩
  extent {cur e host} hcur h := by
    obtain ⟨run, first, sector, buffer, hr, hbackup, -, -, -, -, rfl⟩ := h
    have hd := (runStep_skipOffset hg n cur.cluster hcur).2.1
    rw [loop_congr (writeRunStep_skipOffset hg n cur.cluster hcur)] at hr
    have hle : (v.runAt (v.skipOffset cur.dataOffset).1 (v.skipOffset cur.dataOffset).2 0
        cur.cluster).dataOffset ≤ v.bytesPerSector := hd
    have hzero : (v.skipOffset cur.dataOffset).2 = 0 := by
      rw [writeLoop_backup hle hr] at hbackup
      exact hbackup
    rw [hzero] at hr ⊢
    exact (writeLoop_extent hg hr).1
  goes {cur e} hcur hret hzero he := by
    obtain ⟨o, h⟩ := hret
    have hcopy := h
    simp only [writeStep, Exec.bind_eq_ok] at h
    obtain ⟨r, hr, h⟩ := h
    have hr' := loop_congr (writeRunStep_skipOffset hg n cur.cluster hcur) _ ▸ hr
    rw [hzero] at hr' he
    have hfound := writeLoop_extent hg hr'
    rw [he] at hfound
    cases r with
    | error u => cases hfound
    | ok run =>
      obtain ⟨heq, hbackup, -⟩ := hfound
      cases heq
      dsimp only at h
      rw [if_neg (not_not.mpr hbackup)] at h
      simp only [Exec.bind_eq_ok] at h
      obtain ⟨first, hfirst, sector, hsector, buffer, hbuffer, ⟨r, host⟩, hwrite, h⟩ := h
      have hok : r = .ok () := (writeSectors_inv hg hwrite).1
      subst hok
      exact ⟨host, ⟨run, first, sector, buffer, hr, hbackup, hfirst, hsector, hbuffer, hwrite, rfl⟩,
        hcopy.trans (congrArg Except.ok (nextRun_eq h))⟩
  later {cur} h := by
    rw [h, skipOffset_zero]

/-! ## The bytes that are counted -/

/-- Nothing is transferred behind the break `j` : the count is the length there, or the next transfer
is refused. -/
def Ends (v : Fat32) (n d least x₀ j : ℕ) : Prop :=
  (j + 1) * v.bytesPerCluster = n + d ∨ (v.Joined x₀ (j + 1) ((n - 1) / v.bytesPerCluster) ∧
    n - (n - 1) / v.bytesPerCluster * v.bytesPerCluster < least)

/-- The first run is not broken off, or at every break that is reached no more than `n` bytes are
counted, and the run behind it does not have all its `n` bytes. `d` bytes of the first sector are
skipped, and a rest of less than `least` bytes is refused. -/
def RunsFit (v : Fat32) (n d least x₀ : ℕ) : Prop :=
  (∃ j < (n + d - 1) / v.bytesPerCluster, v.Broken x₀ j) →
    ∀ i, v.Broken x₀ i → (∀ j < i, v.Broken x₀ j → ¬v.Ends n d least x₀ j) →
      (i + 1) * v.bytesPerCluster ≤ n + d ∧
        (v.Joined x₀ (i + 1) ((n - 1) / v.bytesPerCluster) → v.Ends n d least x₀ i)

/-- No run is transferred that makes the count larger than the length. -/
def Bounded (n : ℕ) (step : Cursor σ → Exec (Iter (Cursor σ) (Except Unit ℕ × BlockHost σ)))
    (moves : Cursor σ → Extent → BlockHost σ → Prop) (start : Cursor σ) : Prop :=
  ∀ cur, Reaches step start cur → ∀ e host, moves cur e host → cur.bufferPointer + e.bytes ≤ n

/-- Every iteration that starts below the length returns. -/
def Unhindered (n : ℕ) (step : Cursor σ → Exec (Iter (Cursor σ) (Except Unit ℕ × BlockHost σ)))
    (start : Cursor σ) : Prop :=
  ∀ cur, Reaches step start cur → cur.bufferPointer ≤ n → (step cur).Returns

section

variable {x₀ d₀ d least : ℕ} {free : Cursor σ → Prop} {host : BlockHost σ}
  {step : Cursor σ → Exec (Iter (Cursor σ) (Except Unit ℕ × BlockHost σ))}
  {moves : Cursor σ → Extent → BlockHost σ → Prop}

/-- A cursor behind the break `j`. -/
structure BehindBreak (v : Fat32) (n d least x₀ j : ℕ) (cur : Cursor σ) : Prop where
  broken : v.Broken x₀ j
  before : ∀ i < j, v.Broken x₀ i → ¬v.Ends n d least x₀ i
  offset : cur.dataOffset = 0
  cluster : v.skipClusters (j + 1) x₀ = some cur.cluster
  count : cur.bufferPointer + d = (j + 1) * v.bytesPerCluster
  unfinished : (j + 1) * v.bytesPerCluster ≠ n + d

theorem follow_next {cur cur' : Cursor σ} {e : Extent} (h : v.follow n cur e host = .next cur') :
    n ≠ cur.bufferPointer + e.bytes ∧ cur'.dataOffset = 0 ∧
      cur'.bufferPointer = cur.bufferPointer + e.bytes ∧
      v.getNextCluster e.last = some cur'.cluster := by
  rw [follow] at h
  split_ifs at h with hn
  cases hy : v.getNextCluster e.last with
  | none =>
    rw [hy] at h
    cases h
  | some y =>
    rw [hy] at h
    cases h
    exact ⟨hn, rfl, rfl, rfl⟩

theorem follow_of_ne {cur : Cursor σ} {e : Extent} {y : ℕ} (host : BlockHost σ)
    (hne : n ≠ cur.bufferPointer + e.bytes)
    (hy : v.getNextCluster e.last = some y) :
    v.follow n cur e host = .next ⟨0, y, cur.bufferPointer + e.bytes, host⟩ := by
  rw [follow, if_neg hne, hy]

/-- Where a transfer goes on that was broken off at `j`. -/
theorem behindBreak_of_follow {cur cur' : Cursor σ} {e : Extent} {j : ℕ}
    (hbroken : v.Broken x₀ j) (hbefore : ∀ i < j, v.Broken x₀ i → ¬v.Ends n d least x₀ i)
    (hlast : v.skipClusters j x₀ = some e.last)
    (hcount : cur.bufferPointer + e.bytes + d = (j + 1) * v.bytesPerCluster)
    (h : v.follow n cur e host = .next cur') : BehindBreak v n d least x₀ j cur' := by
  obtain ⟨hne, hoffset, hpointer, hy⟩ := follow_next h
  refine ⟨hbroken, hbefore, hoffset, ?_, by omega, by omega⟩
  rw [skipClusters_succ, hlast, Option.bind_some, hy]

/-- Behind a break that does not end the transfers, a run is broken off at the next break. -/
theorem BehindBreak.broken_or_joined {j : ℕ} {cur : Cursor σ} {e : Extent}
    (h : BehindBreak v n d least x₀ j cur) (he : v.extent n 0 least cur.cluster = some e) :
    (v.Joined x₀ (j + 1) ((n - 1) / v.bytesPerCluster) ∧ ¬v.Ends n d least x₀ j ∧ e.bytes = n) ∨
      ∃ s < (n - 1) / v.bytesPerCluster, v.Joined x₀ (j + 1) s ∧ v.Broken x₀ (j + 1 + s) ∧
        v.skipClusters (j + 1 + s) x₀ = some e.last ∧
        cur.bufferPointer + e.bytes + d = (j + 1 + s + 1) * v.bytesPerCluster ∧
        ∀ i < j + 1 + s, v.Broken x₀ i → ¬v.Ends n d least x₀ i := by
  have hcount := h.count
  obtain ⟨hjoined, hless, -, hbytes⟩ | ⟨s, hs, hjoined, hbroken, hlast, hbytes⟩ :=
    extentFrom_cases h.cluster he
  · rw [Nat.add_zero, Nat.zero_add] at hless
    refine .inl ⟨hjoined, ?_, hbytes⟩
    rintro (hend | ⟨-, hend⟩)
    · exact h.unfinished hend
    · exact hless hend
  · rw [Nat.add_zero] at hs
    rw [Nat.zero_add, Nat.sub_zero] at hbytes
    refine .inr ⟨s, hs, hjoined, hbroken, hlast, ?_, fun i hi hb => ?_⟩
    · calc cur.bufferPointer + e.bytes + d = cur.bufferPointer + d + e.bytes := by omega
        _ = (j + 1) * v.bytesPerCluster + (s + 1) * v.bytesPerCluster := by rw [hcount, hbytes]
        _ = (j + 1 + s + 1) * v.bytesPerCluster := by ring
    · obtain hlt | rfl | hgt := Nat.lt_trichotomy i j
      · exact h.before i hlt hb
      · rintro (hend | ⟨hend, -⟩)
        · exact h.unfinished hend
        · exact hend.not_broken hs hbroken
      · obtain ⟨r, rfl⟩ := Nat.exists_eq_add_of_le (show j + 1 ≤ i by omega)
        exact absurd hb (hjoined.not_broken (show r < s by omega))

/-- The first run, at the start of the chain. -/
theorem first_cases {e : Extent} (he : v.extent n d least x₀ = some e) :
    e.bytes = n ∨ ∃ s < (n + d - 1) / v.bytesPerCluster, v.Joined x₀ 0 s ∧ v.Broken x₀ s ∧
      v.skipClusters s x₀ = some e.last ∧ e.bytes = (s + 1) * v.bytesPerCluster - d := by
  obtain ⟨-, -, -, hbytes⟩ | ⟨s, hs, hjoined, hbroken, hlast, hbytes⟩ :=
    extentFrom_cases (show v.skipClusters 0 x₀ = some x₀ from rfl) he
  · exact .inl hbytes
  · rw [Nat.zero_add] at hbroken hlast hbytes
    exact .inr ⟨s, hs, hjoined, hbroken, hlast, hbytes⟩

theorem skipOffset_lt (hg : v.Geometry) (hd₀ : d₀ < v.bytesPerCluster) :
    (v.skipOffset d₀).2 < v.bytesPerCluster := by
  have := (runStep_skipOffset hg 0 0 hd₀).2.2
  omega

/-- The places that the outer loop reaches, as long as the runs fit. -/
theorem Counts.behindBreak (hc : Counts v n least free step moves) (hg : v.Geometry)
    (hd₀ : d₀ < v.bytesPerCluster) (hfit : v.RunsFit n (v.skipOffset d₀).2 least x₀)
    {cur : Cursor σ} (h : Reaches step ⟨d₀, x₀, 0, host⟩ cur) : cur = ⟨d₀, x₀, 0, host⟩ ∨
      (∃ j < (n + (v.skipOffset d₀).2 - 1) / v.bytesPerCluster, v.Broken x₀ j) ∧
        ∃ j, BehindBreak v n (v.skipOffset d₀).2 least x₀ j cur := by
  induction h with
  | refl => exact .inl rfl
  | @tail cur cur' _ hstep ih =>
    right
    obtain rfl | ⟨hfirst, j, hj⟩ := ih
    · obtain ⟨e, host', hmoves, hfollow⟩ := hc.next hd₀ hstep
      have he := hc.extent hd₀ hmoves
      dsimp only at he
      obtain hbytes | ⟨s, hs, hjoined, hbroken, hlast, hbytes⟩ := first_cases he
      · exact absurd (hbytes.symm.trans (Nat.zero_add _).symm) (follow_next hfollow).1
      · have hlt := skipOffset_lt hg hd₀
        have hle : v.bytesPerCluster ≤ (s + 1) * v.bytesPerCluster :=
          Nat.le_mul_of_pos_left _ (Nat.succ_pos s)
        refine ⟨⟨s, hs, hbroken⟩, s, behindBreak_of_follow hbroken (fun i hi hb => ?_) hlast
          (by simp only; omega) hfollow⟩
        exact absurd (by rwa [Nat.zero_add]) (hjoined.not_broken hi)
    · have hd : cur.dataOffset < v.bytesPerCluster := by
        rw [hj.offset]
        exact hg.bytesPerCluster_pos
      obtain ⟨e, host', hmoves, hfollow⟩ := hc.next hd hstep
      have he := hc.extent hd hmoves
      rw [hj.offset, skipOffset_zero] at he
      obtain ⟨hjoined, hend, -⟩ | ⟨s, -, -, hbroken, hlast, hcount, hbefore⟩ :=
        hj.broken_or_joined he
      · exact absurd ((hfit hfirst j hj.broken hj.before).2 hjoined) hend
      · exact ⟨hfirst, _, behindBreak_of_follow hbroken hbefore hlast hcount hfollow⟩

/-- No run is too long on a chain that fits. -/
theorem Counts.bounded (hc : Counts v n least free step moves) (hg : v.Geometry)
    (hd₀ : d₀ < v.bytesPerCluster) (hfit : v.RunsFit n (v.skipOffset d₀).2 least x₀) :
    Bounded n step moves ⟨d₀, x₀, 0, host⟩ := by
  intro cur hreach e host' hmoves
  obtain rfl | ⟨hfirst, j, hj⟩ := hc.behindBreak hg hd₀ hfit hreach
  · have he := hc.extent hd₀ hmoves
    rw [Nat.zero_add]
    exact (extent_bytes hg (skipOffset_le hg hd₀) he).2
  · have hd : cur.dataOffset < v.bytesPerCluster := by
      rw [hj.offset]
      exact hg.bytesPerCluster_pos
    have he := hc.extent hd hmoves
    rw [hj.offset, skipOffset_zero] at he
    obtain ⟨hjoined, hend, -⟩ | ⟨s, -, -, hbroken, -, hcount, hbefore⟩ := hj.broken_or_joined he
    · exact absurd ((hfit hfirst j hj.broken hj.before).2 hjoined) hend
    · have hle := (hfit hfirst _ hbroken hbefore).1
      omega

/-- There is no break before `i`, or a last one. -/
theorem last_broken (v : Fat32) (x₀ i : ℕ) : (∀ j < i, ¬v.Broken x₀ j) ∨
    ∃ j < i, v.Broken x₀ j ∧ ∀ k, j < k → k < i → ¬v.Broken x₀ k := by
  induction i with
  | zero => exact .inl fun j hj => absurd hj (Nat.not_lt_zero j)
  | succ i ih =>
    by_cases hi : v.Broken x₀ i
    · exact .inr ⟨i, Nat.lt_succ_self i, hi, fun k hk hk' => absurd hk (by omega)⟩
    · obtain hnone | ⟨j, hj, hbroken, hbetween⟩ := ih
      · refine .inl fun j hj => ?_
        obtain hlt | rfl := Nat.lt_succ_iff_lt_or_eq.mp hj
        · exact hnone j hlt
        · exact hi
      · refine .inr ⟨j, by omega, hbroken, fun k hk hk' => ?_⟩
        obtain hlt | rfl := Nat.lt_succ_iff_lt_or_eq.mp hk'
        · exact hbetween k hk hlt
        · exact hi

/-- Behind a break the transfers go on, and a run of `n` more bytes is too long. -/
theorem Counts.not_joined (hc : Counts v n least free step moves) (hg : v.Geometry)
    (hd : d < v.bytesPerCluster) {start cur : Cursor σ} (hun : Unhindered n step start)
    (hb : Bounded n step moves start) (hreach : Reaches step start cur)
    (hle : cur.bufferPointer ≤ n) {j : ℕ} (hj : BehindBreak v n d least x₀ j cur)
    (hend : ¬v.Ends n d least x₀ j) : ¬v.Joined x₀ (j + 1) ((n - 1) / v.bytesPerCluster) := by
  intro hjoined
  have hlt : cur.dataOffset < v.bytesPerCluster := by
    rw [hj.offset]
    exact hg.bytesPerCluster_pos
  have hless : ¬n + 0 - (0 + (n - 1) / v.bytesPerCluster) * v.bytesPerCluster < least := by
    rw [Nat.add_zero, Nat.zero_add]
    exact fun hc => hend (.inr ⟨hjoined, hc⟩)
  obtain ⟨e, he, hbytes⟩ := extentFrom_joined hj.cluster hjoined hless
  have he' : v.extent n (v.skipOffset cur.dataOffset).2 least cur.cluster = some e := by
    rw [hj.offset, skipOffset_zero]
    exact he
  obtain ⟨host', hmoves, -⟩ := hc.goes hlt (hun cur hreach hle) (hc.later hj.offset) he'
  have hsum := hb cur hreach e host' hmoves
  have hcount := hj.count
  have hpos : v.bytesPerCluster ≤ (j + 1) * v.bytesPerCluster :=
    Nat.le_mul_of_pos_left _ (Nat.succ_pos j)
  omega

/-- Where the run goes on that is broken off at `j`. -/
theorem Counts.goes_on {start cur : Cursor σ} {e : Extent} {host' : BlockHost σ} {j : ℕ}
    (hb : Bounded n step moves start) (hreach : Reaches step start cur) (hmoves : moves cur e host')
    (hstep : step cur = .ok (v.follow n cur e host')) (hbroken : v.Broken x₀ j)
    (hbefore : ∀ i < j, v.Broken x₀ i → ¬v.Ends n d least x₀ i)
    (hlast : v.skipClusters j x₀ = some e.last)
    (hcount : cur.bufferPointer + e.bytes + d = (j + 1) * v.bytesPerCluster)
    (hend : ¬v.Ends n d least x₀ j) :
    ∃ cur', Reaches step start cur' ∧ cur'.bufferPointer ≤ n ∧ BehindBreak v n d least x₀ j cur' := by
  have hne : n ≠ cur.bufferPointer + e.bytes := fun hc => hend (.inl (by omega))
  have hsum := hb cur hreach e host' hmoves
  obtain ⟨a, y, ha, hy, -⟩ := id hbroken
  rw [hlast] at ha
  cases ha
  have hfollow := follow_of_ne host' hne hy
  rw [hfollow] at hstep
  exact ⟨_, hreach.tail hstep, hsum, behindBreak_of_follow hbroken hbefore hlast hcount hfollow⟩

/-- Every break is reached up to one that ends the transfers. -/
theorem Counts.reaches (hc : Counts v n least free step moves) (hg : v.Geometry)
    (hd₀ : d₀ < v.bytesPerCluster) (hfree : free ⟨d₀, x₀, 0, host⟩)
    (hun : Unhindered n step ⟨d₀, x₀, 0, host⟩) (hb : Bounded n step moves ⟨d₀, x₀, 0, host⟩)
    (hfirst : ∃ j < (n + (v.skipOffset d₀).2 - 1) / v.bytesPerCluster, v.Broken x₀ j) (i : ℕ)
    (hbroken : v.Broken x₀ i)
    (hbefore : ∀ j < i, v.Broken x₀ j → ¬v.Ends n (v.skipOffset d₀).2 least x₀ j) :
    ∃ cur e host', Reaches step ⟨d₀, x₀, 0, host⟩ cur ∧ moves cur e host' ∧
      step cur = .ok (v.follow n cur e host') ∧ v.skipClusters i x₀ = some e.last ∧
      cur.bufferPointer + e.bytes + (v.skipOffset d₀).2 = (i + 1) * v.bytesPerCluster := by
  induction i using Nat.strong_induction_on with
  | _ i ih =>
  have hd := skipOffset_lt hg hd₀
  obtain ⟨a, b, ha, hab, hne⟩ := id hbroken
  obtain hnone | ⟨j, hji, hj, hbetween⟩ := last_broken v x₀ i
  · -- the first run is broken off here
    obtain ⟨k, hk, hkb⟩ := hfirst
    have hik : i ≤ k := not_lt.mp fun hlt => hnone k hlt hkb
    have hjoined : v.Joined x₀ 0 i := joined_of_not_broken (by rwa [Nat.zero_add])
      fun s hs => by
        rw [Nat.zero_add]
        exact hnone s hs
    obtain ⟨e, he, hlast, hbytes⟩ := extentFrom_broken n (v.skipOffset d₀).2 least 0
      (show v.skipClusters 0 x₀ = some x₀ from rfl) (hik.trans_lt hk)
      hjoined (by rwa [Nat.zero_add])
    rw [Nat.zero_add] at hlast hbytes
    obtain ⟨host', hmoves, hstep⟩ := hc.goes hd₀ (hun _ .refl (Nat.zero_le n)) hfree he
    have hpos : v.bytesPerCluster ≤ (i + 1) * v.bytesPerCluster :=
      Nat.le_mul_of_pos_left _ (Nat.succ_pos i)
    exact ⟨_, e, host', .refl, hmoves, hstep, hlast, by simp only; omega⟩
  · -- the run behind the last break is broken off here
    obtain ⟨cur, e, host', hreach, hmoves, hstep, hlast, hcount⟩ :=
      ih j hji hj fun k hk => hbefore k (hk.trans hji)
    have hend := hbefore j hji hj
    obtain ⟨cur', hreach', hle, hbehind⟩ := goes_on hb hreach hmoves hstep hj
      (fun k hk => hbefore k (hk.trans hji)) hlast hcount hend
    have hnot := hc.not_joined hg hd hun hb hreach' hle hbehind hend
    obtain ⟨s, rfl⟩ := Nat.exists_eq_add_of_le (show j + 1 ≤ i by omega)
    have hjoined : v.Joined x₀ (j + 1) s := joined_of_not_broken ha
      fun r hr => hbetween _ (by omega) (by omega)
    have hs : s < (n - 1) / v.bytesPerCluster :=
      not_le.mp fun hc => hnot fun r hr => hjoined r (hr.trans_le hc)
    obtain ⟨e', he', hlast', hbytes'⟩ := extentFrom_broken n 0 least 0 hbehind.cluster hs hjoined hbroken
    have hlt : cur'.dataOffset < v.bytesPerCluster := by
      rw [hbehind.offset]
      exact hg.bytesPerCluster_pos
    have hextent : v.extent n (v.skipOffset cur'.dataOffset).2 least cur'.cluster = some e' := by
      rw [hbehind.offset, skipOffset_zero]
      exact he'
    obtain ⟨host'', hmoves', hstep'⟩ :=
      hc.goes hlt (hun cur' hreach' hle) (hc.later hbehind.offset) hextent
    refine ⟨cur', e', host'', hreach', hmoves', hstep', hlast', ?_⟩
    have hcount' := hbehind.count
    rw [Nat.zero_add, Nat.sub_zero] at hbytes'
    calc cur'.bufferPointer + e'.bytes + (v.skipOffset d₀).2
        = cur'.bufferPointer + (v.skipOffset d₀).2 + e'.bytes := by omega
      _ = (j + 1) * v.bytesPerCluster + (s + 1) * v.bytesPerCluster := by rw [hcount', hbytes']
      _ = (j + 1 + s + 1) * v.bytesPerCluster := by ring

/-- A chain on which no run is too long fits. -/
theorem Counts.runsFit (hc : Counts v n least free step moves) (hg : v.Geometry)
    (hd₀ : d₀ < v.bytesPerCluster) (hfree : free ⟨d₀, x₀, 0, host⟩)
    (hun : Unhindered n step ⟨d₀, x₀, 0, host⟩) (hb : Bounded n step moves ⟨d₀, x₀, 0, host⟩) :
    v.RunsFit n (v.skipOffset d₀).2 least x₀ := by
  intro hfirst i hbroken hbefore
  obtain ⟨cur, e, host', hreach, hmoves, hstep, hlast, hcount⟩ :=
    hc.reaches hg hd₀ hfree hun hb hfirst i hbroken hbefore
  have hsum := hb cur hreach e host' hmoves
  refine ⟨by omega, fun hjoined => ?_⟩
  by_contra hend
  obtain ⟨cur', hreach', hle, hbehind⟩ := goes_on hb hreach hmoves hstep hbroken hbefore hlast
    hcount hend
  exact hc.not_joined hg (skipOffset_lt hg hd₀) hun hb hreach' hle hbehind hend hjoined

end

/-! ## On a volume no iteration stops -/

/-- The clusters of the chain are on the volume. -/
def OnVolume (v : Fat32) (x₀ : ℕ) : Prop :=
  ∀ i x, v.skipClusters i x₀ = some x → 2 ≤ x ∧ x < 0x0FFFFFF8 ∧
    v.reservedSectors + v.numberOfFats * v.fatSectors + (x - 2) * v.sectorsPerCluster +
      v.sectorsPerCluster ≤ 2 ^ 32

section

variable {x d least : ℕ}

theorem getNextCluster_lt {y : ℕ} (h : v.getNextCluster x = some y) : y < 0x0FFFFFF8 := by
  unfold getNextCluster at h
  split_ifs at h with h₁ h₂
  cases h
  exact h₂.2

/-- An iteration of the inner loop of `Fat32::read` leaves it, or counts one more cluster. -/
theorem runStep_returns (so : ℕ) (hg : v.Geometry) (hd : d ≤ v.bytesPerSector) (hlen : n < 2 ^ 32) {t : ℕ}
    (ht : t * v.bytesPerCluster < n + d) (hx : x < 0x0FFFFFF8) :
    (∃ r, v.runStep n (v.runAt so d t x) = .ok (.done r)) ∨
      (t + 1) * v.bytesPerCluster < n + d ∧ ∃ y < 0x0FFFFFF8,
        v.runStep n (v.runAt so d t x) = .ok (.next (v.runAt so d (t + 1) y)) := by
  obtain hlast | hmore := Nat.lt_or_ge ((t + 1) * v.bytesPerCluster) (n + d) |>.symm
  · exact .inl ⟨_, runStep_last hg hd hlen ht hlast⟩
  · have hstep := runStep_cluster (c := fun _ => x) (i := 0) so hg hd hlen hmore hx
    cases hy : v.getNextCluster x with
    | none =>
      simp only [hy] at hstep
      exact .inl ⟨_, hstep⟩
    | some y =>
      simp only [hy] at hstep
      split_ifs at hstep
      · exact .inl ⟨_, hstep⟩
      · refine .inr ⟨hmore, y, getNextCluster_lt hy, ?_⟩
        rw [runAt, hstep]
        simp [runAt, runAfter]

/-- An inner loop whose iterations are those of `Fat32::read`, or leave it, returns. -/
theorem runLoop_returns (so : ℕ) (hg : v.Geometry) (hd : d ≤ v.bytesPerSector) (hlen : n < 2 ^ 32)
    (hpos : 0 < n) {body : Run → Exec (Iter Run (Except Unit Run))}
    (hbody : ∀ t y, t * v.bytesPerCluster < n + d →
      (∃ r, body (v.runAt so d t y) = .ok (.done r)) ∨
        body (v.runAt so d t y) = v.runStep n (v.runAt so d t y)) (hx : x < 0x0FFFFFF8) :
    (loop body maxIterations (v.runAt so d 0 x)).Returns := by
  have hb := hg.sectorLt
  have hstep : ∀ s : Run, (∃ t y, t * v.bytesPerCluster < n + d ∧ y < 0x0FFFFFF8 ∧
      s = v.runAt so d t y) → (∃ r, body s = .ok (.done r) ∧ True) ∨ ∃ s', body s = .ok (.next s') ∧
        (∃ t y, t * v.bytesPerCluster < n + d ∧ y < 0x0FFFFFF8 ∧ s' = v.runAt so d t y) ∧
        2 ^ 32 - s'.sectors < 2 ^ 32 - s.sectors := by
    rintro _ ⟨t, y, ht, hy, rfl⟩
    obtain ⟨r, hr⟩ | hsame := hbody t y ht
    · exact .inl ⟨r, hr, trivial⟩
    · rw [hsame]
      obtain ⟨r, hr⟩ | ⟨hmore, z, hz, hnext⟩ := runStep_returns so hg hd hlen ht hy
      · exact .inl ⟨r, hr, trivial⟩
      · refine .inr ⟨_, hnext, ⟨t + 1, z, hmore, hz, rfl⟩, ?_⟩
        have hspc := hg.clusterPos
        have hsec := hg.sectors_lt (t := t + 1) (by omega)
        simp only [runAt, runAfter]
        rw [Nat.add_mul] at hsec ⊢
        omega
  obtain ⟨r, hr, -⟩ := loop_returns (Q := fun _ => True) (fun s : Run => 2 ^ 32 - s.sectors) hstep
    maxIterations (v.runAt so d 0 x) ⟨0, x, by omega, hx, rfl⟩
    (by simp [runAt, runAfter, maxIterations])
  exact ⟨r, hr⟩

theorem extentFrom_size_le (hg : v.Geometry) : ∀ {more t x : ℕ} {e : Extent},
    t + more ≤ (n + d - 1) / v.bytesPerCluster → v.extentFrom n d least more t x = some e →
    e.size ≤ n + d + v.bytesPerSector
  | 0, t, x, e, _, h => by
    rw [extentFrom] at h
    split_ifs at h
    rw [← Option.some.inj h]
    have := Nat.div_mul_le_self (max (n + d) 1 - 1) v.bytesPerSector
    simp only [roundUp, Nat.add_mul, Nat.one_mul]
    omega
  | more + 1, t, x, e, ht, h => by
    rw [extentFrom, Option.bind_eq_some_iff] at h
    obtain ⟨y, -, h⟩ := h
    split_ifs at h
    · exact extentFrom_size_le hg (by omega) h
    · have hmono : (t + 1) * v.bytesPerCluster ≤ (n + d - 1) / v.bytesPerCluster * v.bytesPerCluster :=
        Nat.mul_le_mul_right _ (by omega)
      have hle := Nat.div_mul_le_self (n + d - 1) v.bytesPerCluster
      rw [← Option.some.inj h]
      simp only
      omega

theorem nextRun_returns {cur : Cursor σ} {run : Run} {host : BlockHost σ}
    (h : cur.bufferPointer + run.bytes < 2 ^ 64) : (v.nextRun n cur run host).Returns := by
  rw [nextRun, checkedAdd_of_lt h, Exec.ok_bind]
  split_ifs
  · exact ⟨_, rfl⟩
  · cases v.getNextCluster run.cluster with
    | none => exact ⟨_, rfl⟩
    | some y => exact ⟨_, rfl⟩

/-- What both outer loops know of a run that they have found. -/
theorem FindsExtent.run_le (hg : v.Geometry) (hlen : n < 2 ^ 32) {dataOffset : ℕ}
    (hcur : dataOffset < v.bytesPerCluster) {run : Run}
    (h : v.FindsExtent (v.skipOffset dataOffset).1 d (v.extent n d least x) (.ok run))
    (hd : d ≤ v.bytesPerSector) :
    run.sectorOffset < v.sectorsPerCluster ∧ run.sectors * v.bytesPerSector < 2 ^ 33 ∧
      run.bytes + run.dataOffsetBackup ≤ run.sectors * v.bytesPerSector ∧ run.bytes ≤ n := by
  have hb := hg.sectorLt
  obtain ⟨he, hbackup, hso⟩ := h
  have hle : v.bytesPerSector ≤ v.bytesPerCluster := Nat.le_mul_of_pos_left _ hg.clusterPos
  have hsize := extentFrom_size_le hg (by omega) he
  have hbytes := extent_bytes hg (hd.trans hle) he
  simp only at hsize hbytes
  rw [← hbackup] at hbytes
  refine ⟨?_, by omega, hbytes.1, hbytes.2⟩
  have hsum := (runStep_skipOffset hg n x hcur).2.2
  rw [hso]
  refine Nat.lt_of_mul_lt_mul_right (a := v.bytesPerSector) ?_
  rw [← bytesPerCluster]
  omega

/-- An iteration of the outer loop of `Fat32::read` returns. -/
theorem readStep_returns (hg : v.Geometry) (hlen : n < 2 ^ 32) (hpos : 0 < n)
    (hbounce : BounceBuffers pages) (hbuf : bufferAddress + 2 * n ≤ 2 ^ 64) {cur : Cursor σ}
    (hcur : cur.dataOffset < v.bytesPerCluster)
    (hfirst : cur.dataOffset = 0 ∨ cur.bufferPointer = 0) (hle : cur.bufferPointer ≤ n)
    (hvol : 2 ≤ cur.cluster ∧ cur.cluster < 0x0FFFFFF8 ∧ v.reservedSectors +
      v.numberOfFats * v.fatSectors + (cur.cluster - 2) * v.sectorsPerCluster +
        v.sectorsPerCluster ≤ 2 ^ 32) : (v.readStep pages bufferAddress n cur).Returns := by
  obtain ⟨hstart, hd, -⟩ := runStep_skipOffset hg n cur.cluster hcur
  obtain ⟨r, hr⟩ := runLoop_returns (v.skipOffset cur.dataOffset).1 hg hd hlen hpos
    (fun t y _ => .inr rfl) hvol.2.1
  have hfound := runLoop_extent 0 hg hd (fun t y o _ ho => .inr ⟨by omega, ho⟩) hr
  rw [readStep, loop_congr hstart, hr, Exec.ok_bind]
  cases r with
  | error e => exact ⟨_, rfl⟩
  | ok run =>
    obtain ⟨hso, hsize, hbytes, hrun⟩ := FindsExtent.run_le hg hlen hcur hfound hd
    have hpos' := (runBody_runStep.bytes_le hcur (loop_congr hstart _ ▸ hr)).1
    have hzero : run.dataOffsetBackup ≠ 0 → cur.bufferPointer = 0 := by
      intro hne
      refine hfirst.resolve_left fun h0 => hne ?_
      rw [hfound.2.1, h0, skipOffset_zero]
    obtain ⟨host, hread, -⟩ := readRun_spec (2 * n) cur run hg hbounce hvol.1 hvol.2.2 hso hsize
      hbytes (by omega) (by omega) hbuf hzero
    simp only [hread, Exec.ok_bind]
    exact nextRun_returns (by omega)

/-- An iteration of the outer loop of `Fat32::write` returns. -/
theorem writeStep_returns (hg : v.Geometry) (hlen : n < 2 ^ 32) (hpos : 0 < n)
    (hbuf : bufferAddress + 2 * n ≤ 2 ^ 64) {cur : Cursor σ}
    (hcur : cur.dataOffset < v.bytesPerCluster) (hle : cur.bufferPointer ≤ n)
    (hvol : 2 ≤ cur.cluster ∧ cur.cluster < 0x0FFFFFF8 ∧ v.reservedSectors +
      v.numberOfFats * v.fatSectors + (cur.cluster - 2) * v.sectorsPerCluster +
        v.sectorsPerCluster ≤ 2 ^ 32) : (v.writeStep bufferAddress n cur).Returns := by
  obtain ⟨-, hd, -⟩ := runStep_skipOffset hg n cur.cluster hcur
  have hstart := writeRunStep_skipOffset hg n cur.cluster hcur
  have hbody : ∀ t y, t * v.bytesPerCluster < n + (v.skipOffset cur.dataOffset).2 →
      (∃ r, v.writeRunStep n (v.runAt (v.skipOffset cur.dataOffset).1
        (v.skipOffset cur.dataOffset).2 t y) = .ok (.done r)) ∨
      v.writeRunStep n (v.runAt (v.skipOffset cur.dataOffset).1 (v.skipOffset cur.dataOffset).2 t y) =
        v.runStep n (v.runAt (v.skipOffset cur.dataOffset).1 (v.skipOffset cur.dataOffset).2 t y) := by
    intro t y ht
    have hbytes : (v.runAt (v.skipOffset cur.dataOffset).1 (v.skipOffset cur.dataOffset).2 t
      y).bytes ≤ n := (left_runAfter (fun _ => y) 0 n _ t hg hd ht.le).1
    rw [writeRunStep, checkedSub_of_le hbytes, Exec.ok_bind]
    split_ifs
    · exact .inl ⟨_, rfl⟩
    · exact .inr rfl
  obtain ⟨r, hr⟩ := runLoop_returns _ hg hd hlen hpos hbody hvol.2.1
  rw [writeStep, loop_congr hstart, hr, Exec.ok_bind]
  cases r with
  | error e => exact ⟨_, rfl⟩
  | ok run =>
    dsimp only
    by_cases hzero : (v.skipOffset cur.dataOffset).2 = 0
    · rw [hzero] at hr
      have hfound := writeLoop_extent hg hr
      obtain ⟨hso, hsize, hbytes, hrun⟩ := FindsExtent.run_le hg hlen hcur hfound (Nat.zero_le _)
      have h512 : 512 ≤ v.bytesPerSector := Nat.le_of_dvd hg.sectorPos hg.sector
      have hsectors : run.sectors < 2 ^ 32 := by
        have := Nat.mul_le_mul_left run.sectors h512
        omega
      have hsector : v.reservedSectors + v.numberOfFats * v.fatSectors +
          (cur.cluster - 2) * v.sectorsPerCluster + run.sectorOffset < 2 ^ 32 := by omega
      obtain ⟨host, hwrite, -⟩ := writeSectors_eq (bufferAddress + cur.bufferPointer) cur.host hg
        hsector hsectors
      rw [if_neg (not_not.mpr hfound.2.1), clusterToSector_eq hvol.1 (by omega), Exec.ok_bind,
        checkedAdd_of_lt (by omega), Exec.ok_bind, checkedAdd_of_lt (by omega), Exec.ok_bind, hwrite,
        Exec.ok_bind]
      exact nextRun_returns (by omega)
    · have hbackup : run.dataOffsetBackup ≠ 0 := by
        rw [writeLoop_backup (show (v.runAt (v.skipOffset cur.dataOffset).1
          (v.skipOffset cur.dataOffset).2 0 cur.cluster).dataOffset ≤ v.bytesPerSector from hd) hr]
        exact hzero
      rw [if_pos hbackup]
      exact ⟨_, rfl⟩

variable {x₀ d₀ : ℕ} {free : Cursor σ → Prop} {host : BlockHost σ}
  {step : Cursor σ → Exec (Iter (Cursor σ) (Except Unit ℕ × BlockHost σ))}
  {moves : Cursor σ → Extent → BlockHost σ → Prop}

/-- Every transfer begins at a cluster of the chain. -/
theorem Counts.in_chain (hc : Counts v n least free step moves) (hg : v.Geometry)
    (hd₀ : d₀ < v.bytesPerCluster) {cur : Cursor σ} (h : Reaches step ⟨d₀, x₀, 0, host⟩ cur) :
    cur.dataOffset < v.bytesPerCluster ∧ (cur.dataOffset = 0 ∨ cur.bufferPointer = 0) ∧
      ∃ i, v.skipClusters i x₀ = some cur.cluster := by
  induction h with
  | refl => exact ⟨hd₀, .inr rfl, 0, rfl⟩
  | @tail cur cur' _ hstep ih =>
    obtain ⟨hcur, -, i, hi⟩ := ih
    obtain ⟨e, host', hmoves, hfollow⟩ := hc.next hcur hstep
    obtain ⟨-, hoffset, -, hy⟩ := follow_next hfollow
    have hlast : ∃ j, v.skipClusters j x₀ = some e.last := by
      obtain ⟨-, -, hlast, -⟩ | ⟨s, -, -, -, hlast, -⟩ :=
        extentFrom_cases hi (hc.extent hcur hmoves)
      · exact ⟨_, hlast⟩
      · exact ⟨_, hlast⟩
    obtain ⟨j, hj⟩ := hlast
    refine ⟨by rw [hoffset]; exact hg.bytesPerCluster_pos, .inl hoffset, j + 1, ?_⟩
    rw [skipClusters_succ, hj, Option.bind_some, hy]

end

/-! ## Both functions -/

section

/-- The loops of `Fat32::read` end, and no run that they transfer makes the count larger than `n`. -/
def ReadEnds (v : Fat32) (pages : Pages σ) (file : FileInfo) (bufferAddress offset n : ℕ)
    (host : BlockHost σ) : Prop :=
  (v.transfer (v.readStep pages bufferAddress n) file offset host).Finishes ∧
    ∀ x₀, v.skipClusters (offset / v.bytesPerCluster) file.entryCluster = some x₀ →
      Bounded n (v.readStep pages bufferAddress n) (v.ReadMoves pages bufferAddress n)
        ⟨offset % v.bytesPerCluster, x₀, 0, host⟩

/-- The same for `Fat32::write`. -/
def WriteEnds (v : Fat32) (file : FileInfo) (bufferAddress offset n : ℕ) (host : BlockHost σ) :
    Prop :=
  (v.transfer (v.writeStep bufferAddress n) file offset host).Finishes ∧
    ∀ x₀, v.skipClusters (offset / v.bytesPerCluster) file.entryCluster = some x₀ →
      Bounded n (v.writeStep bufferAddress n) (v.WriteMoves bufferAddress n)
        ⟨offset % v.bytesPerCluster, x₀, 0, host⟩

/-- What is left of the offset behind the clusters and the sectors that are skipped. -/
def restOffset (v : Fat32) (offset : ℕ) : ℕ :=
  (v.skipOffset (offset % v.bytesPerCluster)).2

/-- A file whose clusters behind the offset are on the volume. -/
def FileOnVolume (v : Fat32) (file : FileInfo) (offset : ℕ) : Prop :=
  file.fileSize < 2 ^ 32 ∧
    ∀ x₀, v.skipClusters (offset / v.bytesPerCluster) file.entryCluster = some x₀ → v.OnVolume x₀

theorem clampLength_pos {length : ℕ} (hlen : 1 ≤ length)
    (hn : clampLength file offset length = .ok (some n)) : 0 < n ∧ n ≤ file.fileSize := by
  obtain ⟨-, ⟨rfl, hle⟩ | ⟨rfl, hlt⟩⟩ := clampLength_le hn
  · omega
  · omega

/-- A write that starts inside a sector transfers nothing. -/
theorem WriteMoves.zero (hg : v.Geometry) {cur : Cursor σ} {e : Extent} {host : BlockHost σ}
    (hcur : cur.dataOffset < v.bytesPerCluster) (h : v.WriteMoves bufferAddress n cur e host) :
    (v.skipOffset cur.dataOffset).2 = 0 := by
  obtain ⟨run, first, sector, buffer, hr, hbackup, -⟩ := h
  have hle : (v.runAt (v.skipOffset cur.dataOffset).1 (v.skipOffset cur.dataOffset).2 0
      cur.cluster).dataOffset ≤ v.bytesPerSector := (runStep_skipOffset hg n cur.cluster hcur).2.1
  rw [loop_congr (writeRunStep_skipOffset hg n cur.cluster hcur)] at hr
  rw [writeLoop_backup hle hr] at hbackup
  exact hbackup

variable {host : BlockHost σ} {length : ℕ}

theorem hasBounce (hg : v.Geometry) (hbounce : BounceBuffers pages) (hn : n < 2 ^ 32) {cur : Cursor σ}
    (hcur : cur.dataOffset < v.bytesPerCluster) : v.HasBounce pages n cur := by
  intro hne e he halloc
  have hd := (runStep_skipOffset hg n cur.cluster hcur).2.1
  have hsize := extentFrom_size_le hg (by omega) he
  have hb := hg.sectorLt
  have hcount : v.bouncePages e.size < 2 ^ 22 := by
    rw [bouncePages, hg.lba, show 512 - 1 = 2 ^ 9 - 1 from rfl,
      land_bitNot_two_pow (by decide) (by omega), Nat.shiftRight_eq_div_pow,
      show 2 ^ pageShift = 4096 from rfl]
    omega
  obtain ⟨b, p, hb, -⟩ := hbounce _ hcount cur.host.pages
  rw [hb] at halloc
  cases halloc

/-- The chain behind the offset fits a read of `n` bytes. -/
def ReadChainFits (v : Fat32) (file : FileInfo) (offset n : ℕ) : Prop :=
  ∀ x₀, v.skipClusters (offset / v.bytesPerCluster) file.entryCluster = some x₀ →
    v.RunsFit n (v.restOffset offset) 0 x₀

/-- The chain behind the offset fits a write of `n` bytes, or the write is refused as it starts inside
a sector. -/
def WriteChainFits (v : Fat32) (file : FileInfo) (offset n : ℕ) : Prop :=
  ∀ x₀, v.skipClusters (offset / v.bytesPerCluster) file.entryCluster = some x₀ →
    v.restOffset offset = 0 → v.RunsFit n 0 v.bytesPerSector x₀

theorem readChainFits_of_ends (hg : v.Geometry) (hpos : 0 < n) (hle : n ≤ file.fileSize)
    (hvol : v.FileOnVolume file offset) (hbounce : BounceBuffers pages)
    (hbuf : bufferAddress + 2 * n ≤ 2 ^ 64)
    (hends : v.ReadEnds pages file bufferAddress offset n host) : v.ReadChainFits file offset n := by
  intro x₀ hx₀
  have hsize := hvol.1
  have hlt : offset % v.bytesPerCluster < v.bytesPerCluster := Nat.mod_lt _ hg.bytesPerCluster_pos
  have hread : Counts v n 0 (v.HasBounce pages n) (v.readStep pages bufferAddress n)
    (v.ReadMoves pages bufferAddress n) := counts_readStep hg
  refine hread.runsFit hg hlt (hasBounce hg hbounce (by omega) hlt) (fun cur hreach hcur => ?_)
    (hends.2 x₀ hx₀)
  obtain ⟨hoffset, hfirst, i, hi⟩ := hread.in_chain hg hlt hreach
  exact readStep_returns hg (by omega) hpos hbounce hbuf hoffset hfirst hcur (hvol.2 x₀ hx₀ i _ hi)

theorem writeChainFits_of_ends (hg : v.Geometry) (hpos : 0 < n) (hle : n ≤ file.fileSize)
    (hvol : v.FileOnVolume file offset) (hbuf : bufferAddress + 2 * n ≤ 2 ^ 64)
    (hends : v.WriteEnds file bufferAddress offset n host) : v.WriteChainFits file offset n := by
  intro x₀ hx₀ hzero
  have hsize := hvol.1
  have hlt : offset % v.bytesPerCluster < v.bytesPerCluster := Nat.mod_lt _ hg.bytesPerCluster_pos
  have hwrite : Counts v n v.bytesPerSector (fun cur : Cursor σ => (v.skipOffset cur.dataOffset).2 = 0)
    (v.writeStep bufferAddress n) (v.WriteMoves bufferAddress n) := counts_writeStep hg
  rw [← hzero]
  refine hwrite.runsFit hg hlt hzero (fun cur hreach hcur => ?_) (hends.2 x₀ hx₀)
  obtain ⟨hoffset, -, i, hi⟩ := hwrite.in_chain hg hlt hreach
  exact writeStep_returns hg (by omega) hpos hbuf hoffset hcur (hvol.2 x₀ hx₀ i _ hi)

theorem writeEnds_of_fits (hg : v.Geometry) (hfit : v.WriteChainFits file offset n) :
    v.WriteEnds file bufferAddress offset n host := by
  have hlt : offset % v.bytesPerCluster < v.bytesPerCluster := Nat.mod_lt _ hg.bytesPerCluster_pos
  have hwrite : Counts v n v.bytesPerSector (fun cur : Cursor σ => (v.skipOffset cur.dataOffset).2 = 0)
    (v.writeStep bufferAddress n) (v.WriteMoves bufferAddress n) := counts_writeStep hg
  refine ⟨transferBody_writeStep.transfer_finishes host, fun x₀ hx₀ => ?_⟩
  by_cases hzero : v.restOffset offset = 0
  · have hfit := hfit x₀ hx₀ hzero
    rw [← hzero] at hfit
    exact hwrite.bounded hg hlt hfit
  · -- nothing is transferred, and so no other iteration is reached
    have hnone : ∀ e host', ¬v.WriteMoves bufferAddress n
        ⟨offset % v.bytesPerCluster, x₀, 0, host⟩ e host' := fun e host' hmoves =>
      hzero (WriteMoves.zero hg hlt hmoves)
    intro cur hreach e host' hmoves
    obtain rfl | ⟨cur', hstep, -⟩ := hreach.cases_head
    · exact absurd hmoves (hnone e host')
    · obtain ⟨e', host'', hmoves', -⟩ := hwrite.next hlt hstep
      exact absurd hmoves' (hnone e' host'')

/-- The loops of `Fat32::read` and of `Fat32::write` end, and if the chain fits, the runs that they
transfer have at most `n` bytes. For a file on the volume this is exact : if they have, the chain
fits. -/
theorem transfers_end_iff (hg : v.Geometry) (hlen : 1 ≤ length)
    (hn : clampLength file offset length = .ok (some n)) :
    ((v.ReadChainFits file offset n → v.ReadEnds pages file bufferAddress offset n host) ∧
      (v.WriteChainFits file offset n → v.WriteEnds file bufferAddress offset n host)) ∧
    (v.FileOnVolume file offset → BounceBuffers pages → bufferAddress + 2 * n ≤ 2 ^ 64 →
      (v.ReadEnds pages file bufferAddress offset n host → v.ReadChainFits file offset n) ∧
      (v.WriteEnds file bufferAddress offset n host → v.WriteChainFits file offset n)) := by
  obtain ⟨hpos, hle⟩ := clampLength_pos hlen hn
  have hlt : offset % v.bytesPerCluster < v.bytesPerCluster := Nat.mod_lt _ hg.bytesPerCluster_pos
  refine ⟨⟨fun hfit => ?_, writeEnds_of_fits hg⟩, fun hvol hbounce hbuf =>
    ⟨readChainFits_of_ends hg hpos hle hvol hbounce hbuf,
      writeChainFits_of_ends hg hpos hle hvol hbuf⟩⟩
  exact ⟨transferBody_readStep.transfer_finishes host,
    fun x₀ hx₀ => (counts_readStep hg).bounded hg hlt (hfit x₀ hx₀)⟩

/-- A file of two adjacent clusters. -/
theorem transfers_end_iff_pair :
    (stepVolume 1 3).ReadEnds onePage ⟨2, 1024⟩ 0x80000 0 1024 blankHost ∧
      (stepVolume 1 3).WriteEnds ⟨2, 1024⟩ 0x80000 0 1024 blankHost := by
  have hnone : ∀ j < 1, ¬(stepVolume 1 3).Broken 2 j := by
    rintro j hj ⟨a, b, ha, hb, hne⟩
    obtain rfl : j = 0 := by omega
    cases ha
    cases hb
    exact hne rfl
  have hread : (stepVolume 1 3).ReadChainFits ⟨2, 1024⟩ 0 1024 := by
    intro x₀ hx₀
    cases hx₀
    rintro ⟨j, hj, hbroken⟩
    exact absurd hbroken (hnone j hj)
  have hwrite : (stepVolume 1 3).WriteChainFits ⟨2, 1024⟩ 0 1024 := by
    intro x₀ hx₀ _
    cases hx₀
    rintro ⟨j, hj, hbroken⟩
    exact absurd hbroken (hnone j hj)
  obtain ⟨⟨h, h'⟩, -⟩ := @transfers_end_iff (stepVolume 1 3) Unit onePage ⟨2, 1024⟩ 0x80000 0 1024
    blankHost 1024 (stepVolume_geometry 1 3) (by decide) rfl
  exact ⟨h hread, h' hwrite⟩

/-- The clusters of a chain that goes up in steps of two. -/
theorem stepVolume_cluster : ∀ (i x : ℕ), (stepVolume 2 6).skipClusters i 2 = some x →
    2 ≤ x ∧ x ≤ 8
  | 0, x, h => by
    cases h
    decide
  | i + 1, x, h => by
    rw [skipClusters_succ, Option.bind_eq_some_iff] at h
    obtain ⟨y, hy, h⟩ := h
    have hle := stepVolume_cluster i y hy
    unfold getNextCluster at h
    split_ifs at h with _ hfat
    have hx := Option.some.inj h
    simp only [stepVolume] at hx hfat
    split_ifs at hx hfat
    · omega
    · omega

/-- The clusters 2, 4 and 6 : of 700 bytes, 512 are read from each of the first two. -/
theorem read_counts_more : ∃ pages : Pages Unit, clampLength ⟨2, 1024⟩ 0 700 = .ok (some 700) ∧
    ¬(stepVolume 2 6).ReadEnds pages ⟨2, 1024⟩ 0x80000 0 700 blankHost := by
  refine ⟨onePage, rfl, fun hends => ?_⟩
  have hvol : (stepVolume 2 6).FileOnVolume ⟨2, 1024⟩ 0 := by
    refine ⟨by decide, fun x₀ hx₀ i x hx => ?_⟩
    cases hx₀
    have := stepVolume_cluster i x hx
    simp only [stepVolume]
    omega
  have hfit := readChainFits_of_ends (stepVolume_geometry 2 6) (by decide) (by decide) hvol
    bounceBuffers_onePage (by decide) hends 2 rfl
  have h0 : (stepVolume 2 6).Broken 2 0 := ⟨2, 4, rfl, rfl, by decide⟩
  have h1 : (stepVolume 2 6).Broken 2 1 := ⟨4, 6, rfl, rfl, by decide⟩
  have hle := (hfit ⟨0, by decide, h0⟩ 1 h1 fun j hj _ => by
    obtain rfl : j = 0 := by omega
    rintro (hend | ⟨-, hend⟩)
    · exact absurd hend (by decide)
    · exact absurd hend (by decide)).1
  exact absurd hle (by decide)

end

end Fat32

end MiniVisor
