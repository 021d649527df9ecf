import MiniVisor.Fat32Extent

/-!
# What `Fat32::read` writes to

A read that starts at the begin of a sector transfers whole sectors to the buffer, so it may write behind
the end of it. The bytes are only counted afterwards, and every further transfer asks for the full length
again. A read that starts inside a sector goes through a bounce buffer, from which exactly the bytes that
are asked for are copied.

`readStep_inv` says what one iteration of the outer loop can do. `read_inside_iff` is the condition under
which nothing outside of the buffer is written.
-/

namespace MiniVisor

open Machine

namespace Fat32

variable {v : Fat32} {σ : Type} {pages : Pages σ} {file : FileInfo} {bufferAddress offset n : ℕ}

/-! ## One transfer -/

/-- The number of pages of a bounce buffer. -/
def bouncePages (v : Fat32) (size : ℕ) : ℕ :=
  (((size &&& bitNot 64 (v.lbaSize - 1)) + v.lbaSize) >>> pageShift) + 1

/-- Sectors are read, as they are whole blocks. -/
theorem readSectors_inv (hg : v.Geometry) {buffer sector sectors : ℕ} {isPrivate : Bool}
    {h : BlockHost σ} {o : Except Unit Unit × BlockHost σ}
    (ho : v.readSectors buffer sector sectors isPrivate h = .ok o) :
    ∃ address, o = (.ok (), h.receive buffer address (sectors * v.bytesPerSector) isPrivate) := by
  simp only [readSectors, sectorAddress, Exec.bind_eq_ok, checkedMul_eq_ok, checkedAdd_eq_ok] at ho
  obtain ⟨address, ⟨base, ⟨-, rfl⟩, rest, ⟨-, rfl⟩, -, rfl⟩, length, ⟨-, rfl⟩, ho⟩ := ho
  have haddress : 512 ∣ v.baseLba * v.lbaSize + sector * v.bytesPerSector := by
    rw [hg.lba]
    exact Nat.dvd_add (Nat.dvd_mul_left _ _) (hg.sector.mul_left _)
  have hlength : 512 ∣ sectors * v.bytesPerSector := hg.sector.mul_left _
  refine ⟨v.baseLba * v.lbaSize + sector * v.bytesPerSector, ?_⟩
  rw [← Except.ok.inj ho, BlockHost.blkRead, if_neg]
  rw [Nat.and_two_pow_sub_one_eq_mod, Nat.and_two_pow_sub_one_eq_mod]
  omega

/-- What a transfer of the extent `e` does, that starts `d` bytes inside a sector. -/
inductive Transferred (v : Fat32) (pages : Pages σ) (bufferAddress d : ℕ) (e : Extent)
    (cur : Cursor σ) (host : BlockHost σ) : Prop
  | direct (f : ℕ → BitVec 8) (hd : d = 0) (hpages : host.pages = cur.host.pages)
      (hmemory : host.memory =
        cur.host.memory.fill (bufferAddress + cur.bufferPointer) e.size false f)
  | bounced (f g : ℕ → BitVec 8) (buffer : ℕ) (p : σ) (hd : d ≠ 0) (hsize : e.size < 2 ^ 64)
      (halloc : pages.allocatePages (v.bouncePages e.size) 0 cur.host.pages = (some buffer, p))
      (hpages : host.pages = pages.freePages buffer (v.bouncePages e.size) p)
      (hmemory : host.memory = ((cur.host.memory.fill buffer e.size true f).touch (buffer + d)
        e.bytes true).fill bufferAddress e.bytes false g)

theorem readRun_inv (hg : v.Geometry) {cur : Cursor σ} {run : Run} {r : Except Unit Unit}
    {host : BlockHost σ} (h : v.readRun pages bufferAddress cur run = .ok (r, host)) :
    (run.dataOffsetBackup ≠ 0 ∧ r = .error () ∧ ∃ p, host = { cur.host with pages := p } ∧
      pages.allocatePages (v.bouncePages (run.sectors * v.bytesPerSector)) 0 cur.host.pages =
        (none, p)) ∨
    (r = .ok () ∧ Transferred v pages bufferAddress run.dataOffsetBackup
      ⟨run.sectors * v.bytesPerSector, run.bytes, run.cluster⟩ cur host) := by
  simp only [readRun, Exec.bind_eq_ok, checkedMul_eq_ok, checkedAdd_eq_ok, checkedSub_eq_ok] at h
  obtain ⟨size, ⟨hsize, rfl⟩, mask, ⟨-, rfl⟩, aligned, ⟨-, rfl⟩, h⟩ := h
  split_ifs at h with hd
  · cases halloc : pages.allocatePages (v.bouncePages (run.sectors * v.bytesPerSector)) 0
        cur.host.pages with
    | mk b p =>
      rw [bouncePages] at halloc
      rw [halloc] at h
      cases b with
      | none =>
        cases h
        exact .inl ⟨hd, rfl, p, rfl, rfl⟩
      | some buffer =>
        simp only [Exec.bind_eq_ok] at h
        obtain ⟨sector, -, sector', -, ⟨r', host'⟩, hread, h⟩ := h
        obtain ⟨address, ho⟩ := readSectors_inv hg hread
        cases ho
        simp only [Exec.bind_eq_ok, assert_eq_ok, checkedAdd_eq_ok] at h
        obtain ⟨-, -, source, ⟨-, rfl⟩, h⟩ := h
        cases h
        refine .inr ⟨rfl, .bounced (fun i => cur.host.disk (address + i)) (fun i =>
          (cur.host.memory.fill buffer (run.sectors * v.bytesPerSector) true fun i =>
            cur.host.disk (address + i)).bytes (buffer + run.dataOffsetBackup + i)) buffer p hd hsize
          halloc rfl rfl⟩
  · rw [not_not] at hd
    simp only [Exec.bind_eq_ok, checkedAdd_eq_ok] at h
    obtain ⟨buffer, ⟨-, rfl⟩, sector, -, sector', -, h⟩ := h
    obtain ⟨address, ho⟩ := readSectors_inv hg h
    cases ho
    exact .inr ⟨rfl, .direct (fun i => cur.host.disk (address + i)) hd rfl rfl⟩

/-- The inner loop of an iteration has found the extent that is transferred. -/
theorem readRun_found (hg : v.Geometry) {cur : Cursor σ} (hcur : cur.dataOffset < v.bytesPerCluster)
    {r : Except Unit Run}
    (h : loop (v.runStep n) maxIterations (.start cur.cluster cur.dataOffset) = .ok r) :
    v.FindsExtent (v.skipOffset cur.dataOffset).1 (v.skipOffset cur.dataOffset).2
      (v.extent n (v.skipOffset cur.dataOffset).2 0 cur.cluster) r := by
  obtain ⟨hstart, hd, -⟩ := runStep_skipOffset hg n cur.cluster hcur
  rw [loop_congr hstart] at h
  exact runLoop_extent 0 hg hd (fun t y o _ ho => .inr ⟨by omega, ho⟩) h

/-- What an iteration of the outer loop can do. -/
theorem readStep_inv (hg : v.Geometry) {cur : Cursor σ} (hcur : cur.dataOffset < v.bytesPerCluster)
    {o : Iter (Cursor σ) (Except Unit ℕ × BlockHost σ)}
    (h : v.readStep pages bufferAddress n cur = .ok o) :
    (v.extent n (v.skipOffset cur.dataOffset).2 0 cur.cluster = none ∧
      o = .done (.error (), cur.host)) ∨
    ∃ e, v.extent n (v.skipOffset cur.dataOffset).2 0 cur.cluster = some e ∧
      (((v.skipOffset cur.dataOffset).2 ≠ 0 ∧ ∃ p, o = .done (.error (), { cur.host with pages := p }) ∧
        pages.allocatePages (v.bouncePages e.size) 0 cur.host.pages = (none, p)) ∨
      ∃ host, Transferred v pages bufferAddress (v.skipOffset cur.dataOffset).2 e cur host ∧
        o = v.follow n cur e host) := by
  rw [readStep, Exec.bind_eq_ok] at h
  obtain ⟨r, hr, h⟩ := h
  have hfound := readRun_found hg hcur hr
  cases r with
  | error u => exact .inl ⟨hfound, (Except.ok.inj h).symm⟩
  | ok run =>
    obtain ⟨he, hbackup, -⟩ := hfound
    simp only [Exec.bind_eq_ok] at h
    obtain ⟨⟨r, host⟩, hrun, h⟩ := h
    refine .inr ⟨_, he, ?_⟩
    obtain ⟨hne, rfl, p, rfl, halloc⟩ | ⟨rfl, htransfer⟩ := readRun_inv hg hrun
    · rw [hbackup] at hne
      exact .inl ⟨hne, p, (Except.ok.inj h).symm, halloc⟩
    · rw [hbackup] at htransfer
      exact .inr ⟨host, htransfer, nextRun_eq h⟩

/-! ## All transfers -/

/-- Nothing is written outside of the buffer, except to pages that were allocated for this call and are
free again. -/
structure StaysInside (pages : Pages σ) (bufferAddress length : ℕ) (host host' : BlockHost σ) : Prop where
  confined : host.memory.Confined (Set.Ico bufferAddress (bufferAddress + length)) host'.memory
  bounce : ∃ new, host'.memory.accesses = new ++ host.memory.accesses ∧ ∀ x ∈ new, x.isPrivate = true →
    ∃ buffer count p, pages.allocatePages count 0 host.pages = (some buffer, p) ∧
      host'.pages = pages.freePages buffer count p ∧
      x.range ⊆ Set.Ico buffer (buffer + count * 4096)

/-- The first extent, if there are pages for its bounce buffer. -/
def firstExtent (v : Fat32) (pages : Pages σ) (p : σ) (n d cluster : ℕ) : Option Extent :=
  (v.extent n d 0 cluster).bind fun e =>
    if d = 0 ∨ (pages.allocatePages (v.bouncePages e.size) 0 p).1.isSome then some e else none

/-- The sectors of all transfers to the buffer end inside of it. -/
structure Fits (v : Fat32) (pages : Pages σ) (p : σ) (n d cluster length : ℕ) : Prop where
  first : d = 0 → ∀ e, v.extent n d 0 cluster = some e → e.size ≤ length
  later : ∀ x bytes e, v.Later n (v.firstExtent pages p n d cluster) (v.extent n 0 0) x bytes →
    v.extent n 0 0 x = some e → bytes + e.size ≤ length

theorem le_bouncePages (hg : v.Geometry) {size : ℕ} (hsize : size < 2 ^ 64) :
    size ≤ v.bouncePages size * 4096 := by
  rw [bouncePages, hg.lba, show 512 - 1 = 2 ^ 9 - 1 from rfl, land_bitNot_two_pow (by decide) hsize,
    Nat.shiftRight_eq_div_pow, show 2 ^ pageShift = 4096 from rfl]
  omega

/-- A transfer stays inside if its sectors do. -/
theorem Transferred.staysInside (hg : v.Geometry) {d length : ℕ} {e : Extent} {host : BlockHost σ}
    {cur : Cursor σ} {host' : BlockHost σ} (h : Transferred v pages bufferAddress d e cur host')
    (hcur : StaysInside pages bufferAddress length host cur.host)
    (hdirect : d = 0 → cur.bufferPointer + e.size ≤ length)
    (hbounced : d ≠ 0 → cur.host.pages = host.pages ∧ e.bytes ≤ length ∧ e.bytes + d ≤ e.size ∧
      cur.host.memory.accesses = host.memory.accesses) :
    StaysInside pages bufferAddress length host host' := by
  obtain ⟨new, hnew, hprivate⟩ := hcur.bounce
  cases h with
  | direct f hd hpages hmemory =>
    have hfits := hdirect hd
    refine ⟨hcur.confined.trans ?_, ?_⟩
    · rw [hmemory]
      exact Memory.confined_fill fun _ => Set.Ico_subset_Ico (by omega) (by omega)
    · refine ⟨⟨bufferAddress + cur.bufferPointer, e.size, false⟩ :: new, ?_, fun x hx hp => ?_⟩
      · rw [hmemory, Memory.fill, hnew]
        rfl
      · rw [List.mem_cons] at hx
        obtain rfl | hx := hx
        · cases hp
        · rw [hpages]
          exact hprivate x hx hp
  | bounced f g buffer p hd hsize halloc hpages hmemory =>
    obtain ⟨hsame, hbytes, hle, haccesses⟩ := hbounced hd
    have hcount := le_bouncePages hg hsize
    refine ⟨hcur.confined.trans ?_, ?_⟩
    · rw [hmemory]
      refine Memory.Confined.trans (Memory.Confined.trans (Memory.confined_fill fun h => ?_)
        (Memory.confined_touch fun h => ?_)) (Memory.confined_fill fun _ => ?_)
      · cases h
      · cases h
      · exact Set.Ico_subset_Ico le_rfl (by omega)
    · refine ⟨[⟨bufferAddress, e.bytes, false⟩, ⟨buffer + d, e.bytes, true⟩, ⟨buffer, e.size, true⟩],
        ?_, fun x hx hp => ⟨buffer, _, p, by rw [← hsame]; exact halloc, hpages, ?_⟩⟩
      · rw [hmemory, Memory.fill, Memory.touch, Memory.fill, haccesses]
        rfl
      · simp only [List.mem_cons, List.not_mem_nil, or_false] at hx
        obtain rfl | rfl | rfl := hx
        · cases hp
        · exact Set.Ico_subset_Ico (by simp only; omega) (by simp only; omega)
        · exact Set.Ico_subset_Ico le_rfl (by simp only; omega)

theorem StaysInside.refl (pages : Pages σ) (bufferAddress length : ℕ) (host : BlockHost σ) (p : σ) :
    StaysInside pages bufferAddress length host { host with pages := p } :=
  ⟨Memory.Confined.refl _ _, [], rfl, by simp⟩

section Loop

variable {length d₀ x : ℕ} {host : BlockHost σ}

/-- The first iteration, or a later one. -/
def AtTransfer (v : Fat32) (pages : Pages σ) (n d₀ x : ℕ) (host : BlockHost σ) (cur : Cursor σ) : Prop :=
  cur = ⟨d₀, x, 0, host⟩ ∨ (cur.dataOffset = 0 ∧
    v.Later n (v.firstExtent pages host.pages n (v.skipOffset d₀).2 x) (v.extent n 0 0) cur.cluster
      cur.bufferPointer)

/-- What follows a transfer is a later one, or the end. -/
theorem follow_atTransfer {cur : Cursor σ} (hcur : AtTransfer v pages n d₀ x host cur)
    {e : Extent} (he : v.extent n (v.skipOffset cur.dataOffset).2 0 cur.cluster = some e)
    {host' : BlockHost σ}
    (ht : Transferred v pages bufferAddress (v.skipOffset cur.dataOffset).2 e cur host') :
    (∃ r, v.follow n cur e host' = .done (r, host')) ∨
      ∃ cur', v.follow n cur e host' = .next cur' ∧ cur'.host = host' ∧
        AtTransfer v pages n d₀ x host cur' := by
  rw [follow]
  split_ifs with hn
  · exact .inl ⟨_, rfl⟩
  · cases hy : v.getNextCluster e.last with
    | none => exact .inl ⟨_, rfl⟩
    | some y =>
      refine .inr ⟨_, rfl, rfl, .inr ⟨rfl, ?_⟩⟩
      obtain rfl | ⟨hd, hlater⟩ := hcur
      · rw [Nat.zero_add] at hn ⊢
        refine .first ?_ hn hy
        rw [firstExtent, he, Option.bind_some, if_pos]
        cases ht with
        | direct f hd hpages hmemory => exact .inl hd
        | bounced f g buffer p hd hsize halloc hpages hmemory =>
          right
          rw [halloc]
          rfl
      · rw [hd, skipOffset_zero] at he
        exact .next hlater he hn hy

theorem AtTransfer.dataOffset_lt (hg : v.Geometry) (hd₀ : d₀ < v.bytesPerCluster) {cur : Cursor σ}
    (hcur : AtTransfer v pages n d₀ x host cur) : cur.dataOffset < v.bytesPerCluster := by
  have hpos := hg.bytesPerCluster_pos
  obtain rfl | ⟨hd, -⟩ := hcur
  · exact hd₀
  · omega

section Fits

variable (hg : v.Geometry) (hd₀ : d₀ < v.bytesPerCluster) (hn : n ≤ length)
  (hfits : v.Fits pages host.pages n (v.skipOffset d₀).2 x length)

include hg hd₀ hn hfits

/-- A transfer that is known to fit stays inside. -/
theorem AtTransfer.staysInside {cur : Cursor σ} (hcur : AtTransfer v pages n d₀ x host cur)
    (hinside : StaysInside pages bufferAddress length host cur.host) {e : Extent}
    (he : v.extent n (v.skipOffset cur.dataOffset).2 0 cur.cluster = some e) {host' : BlockHost σ}
    (ht : Transferred v pages bufferAddress (v.skipOffset cur.dataOffset).2 e cur host') :
    StaysInside pages bufferAddress length host host' := by
  obtain ⟨hbytes, hbytesn⟩ := extent_bytes hg (skipOffset_le hg (hcur.dataOffset_lt hg hd₀)) he
  obtain rfl | ⟨hd, hlater⟩ := hcur
  · refine ht.staysInside hg hinside (fun hd => ?_) fun _ => ⟨rfl, by omega, hbytes, rfl⟩
    have := hfits.first hd e he
    simp only
    omega
  · rw [hd, skipOffset_zero] at he ht
    exact ht.staysInside hg hinside (fun _ => hfits.later _ _ e hlater he) fun hne => absurd rfl hne

/-- One iteration keeps inside, and goes on with a transfer that is known to fit. -/
theorem readStep_staysInside {cur : Cursor σ} {o : Iter (Cursor σ) (Except Unit ℕ × BlockHost σ)}
    (hcur : AtTransfer v pages n d₀ x host cur)
    (hinside : StaysInside pages bufferAddress length host cur.host)
    (h : v.readStep pages bufferAddress n cur = .ok o) :
    (∃ r, o = .done r ∧ StaysInside pages bufferAddress length host r.2) ∨
      ∃ cur', o = .next cur' ∧ AtTransfer v pages n d₀ x host cur' ∧
        StaysInside pages bufferAddress length host cur'.host := by
  obtain ⟨-, rfl⟩ | ⟨e, he, ⟨hne, p, rfl, -⟩ | ⟨host', ht, rfl⟩⟩ :=
    readStep_inv hg (hcur.dataOffset_lt hg hd₀) h
  · exact .inl ⟨_, rfl, hinside⟩
  · obtain rfl | ⟨hd, -⟩ := hcur
    · exact .inl ⟨_, rfl, StaysInside.refl pages bufferAddress length host p⟩
    · rw [hd, skipOffset_zero] at hne
      exact absurd rfl hne
  · have hinside' := hcur.staysInside hg hd₀ hn hfits hinside he ht
    obtain ⟨r, hr⟩ | ⟨cur', hnext, hhost, hat⟩ := follow_atTransfer hcur he ht
    · exact .inl ⟨_, hr, hinside'⟩
    · exact .inr ⟨cur', hnext, hat, by rwa [hhost]⟩

/-- The states that the loop comes to. -/
theorem reaches_staysInside {cur : Cursor σ}
    (h : Reaches (v.readStep pages bufferAddress n) ⟨d₀, x, 0, host⟩ cur) :
    AtTransfer v pages n d₀ x host cur ∧ StaysInside pages bufferAddress length host cur.host := by
  induction h with
  | refl => exact ⟨.inl rfl, StaysInside.refl pages bufferAddress length host host.pages⟩
  | tail _ hnext ih =>
    obtain ⟨r, ho, -⟩ | ⟨cur', ho, hcur'⟩ := readStep_staysInside hg hd₀ hn hfits ih.1 ih.2 hnext
    · cases ho
    · cases ho
      exact hcur'

/-- If all transfers fit, the loop stays inside of the buffer. -/
theorem staysInside_of_fits {r : Except Unit ℕ × BlockHost σ}
    (h : loop (v.readStep pages bufferAddress n) maxIterations ⟨d₀, x, 0, host⟩ = .ok r) :
    StaysInside pages bufferAddress length host r.2 := by
  obtain ⟨cur, hcur, hdone⟩ := exists_reaches_done h
  obtain ⟨hat, hinside⟩ := reaches_staysInside hg hd₀ hn hfits hcur
  obtain ⟨r', ho, hr⟩ | ⟨cur', ho, -⟩ := readStep_staysInside hg hd₀ hn hfits hat hinside hdone
  · cases ho
    exact hr
  · cases ho

end Fits

/-- A transfer is recorded in front of what was recorded before. -/
theorem Transferred.accesses {d : ℕ} {e : Extent} {cur : Cursor σ} {host' : BlockHost σ}
    (h : Transferred v pages bufferAddress d e cur host') :
    ∃ new, host'.memory.accesses = new ++ cur.host.memory.accesses ∧
      (d = 0 → new = [⟨bufferAddress + cur.bufferPointer, e.size, false⟩]) := by
  cases h with
  | direct f hd hpages hmemory =>
    refine ⟨_, ?_, fun _ => rfl⟩
    rw [hmemory]
    rfl
  | bounced f g buffer p hd hsize halloc hpages hmemory =>
    refine ⟨[⟨bufferAddress, e.bytes, false⟩, ⟨buffer + d, e.bytes, true⟩, ⟨buffer, e.size, true⟩], ?_,
      fun h0 => absurd h0 hd⟩
    rw [hmemory]
    rfl

/-- The loop keeps what was recorded before. -/
theorem readLoop_accesses (hg : v.Geometry) {m : ℕ} {cur : Cursor σ}
    {r : Except Unit ℕ × BlockHost σ} (hcur : cur.dataOffset < v.bytesPerCluster)
    (h : loop (v.readStep pages bufferAddress n) m cur = .ok r) :
    ∃ new, r.2.memory.accesses = new ++ cur.host.memory.accesses := by
  have hpos := hg.bytesPerCluster_pos
  have hstep : ∀ {s : Cursor σ} {o : Iter (Cursor σ) (Except Unit ℕ × BlockHost σ)},
      s.dataOffset < v.bytesPerCluster → v.readStep pages bufferAddress n s = .ok o →
      (∃ r new, o = .done r ∧ r.2.memory.accesses = new ++ s.host.memory.accesses) ∨
        ∃ s' new, o = .next s' ∧ s'.dataOffset = 0 ∧
          s'.host.memory.accesses = new ++ s.host.memory.accesses := by
    intro s o hs ho
    obtain ⟨-, rfl⟩ | ⟨e, -, ⟨-, p, rfl, -⟩ | ⟨host', ht, rfl⟩⟩ := readStep_inv hg hs ho
    · exact .inl ⟨_, [], rfl, rfl⟩
    · exact .inl ⟨_, [], rfl, rfl⟩
    · obtain ⟨new, hnew, -⟩ := ht.accesses
      obtain ⟨r, hr⟩ | ⟨s', hs', hd, hhost⟩ := follow_cases n s e host'
      · exact .inl ⟨_, new, hr, hnew⟩
      · exact .inr ⟨s', new, hs', hd, by rwa [hhost]⟩
  refine loop_ok (I := fun s => s.dataOffset < v.bytesPerCluster ∧
      ∃ new, s.host.memory.accesses = new ++ cur.host.memory.accesses) (C := fun _ => True)
    (Q := fun r => ∃ new, r.2.memory.accesses = new ++ cur.host.memory.accesses) ?_ ?_ _ _
    ⟨hcur, [], rfl⟩ (throughout_true _ _) h
  · rintro s s' ⟨hs, new, hnew⟩ - ho
    obtain ⟨r, new', ho', -⟩ | ⟨s'', new', ho', hd, hnew'⟩ := hstep hs ho
    · cases ho'
    · cases ho'
      exact ⟨by omega, new' ++ new, by rw [hnew', hnew, List.append_assoc]⟩
  · rintro s r ⟨hs, new, hnew⟩ - ho
    obtain ⟨r', new', ho', hnew'⟩ | ⟨s'', new', ho', -⟩ := hstep hs ho
    · cases ho'
      exact ⟨new' ++ new, by rw [hnew', hnew, List.append_assoc]⟩
    · cases ho'

/-- A loop that has returned has made its first transfer, and gone on behind it. -/
theorem readLoop_first (hg : v.Geometry) {m : ℕ} {cur : Cursor σ} {r : Except Unit ℕ × BlockHost σ}
    (hcur : cur.dataOffset < v.bytesPerCluster)
    (h : loop (v.readStep pages bufferAddress n) m cur = .ok r) {e : Extent}
    (he : v.extent n (v.skipOffset cur.dataOffset).2 0 cur.cluster = some e)
    (hpages : (v.skipOffset cur.dataOffset).2 = 0 ∨
      (pages.allocatePages (v.bouncePages e.size) 0 cur.host.pages).1.isSome) :
    ∃ host', Transferred v pages bufferAddress (v.skipOffset cur.dataOffset).2 e cur host' ∧
      (∃ new, r.2.memory.accesses = new ++ host'.memory.accesses) ∧
      (n ≠ cur.bufferPointer + e.bytes → ∀ y, v.getNextCluster e.last = some y → ∃ m',
        loop (v.readStep pages bufferAddress n) m' ⟨0, y, cur.bufferPointer + e.bytes, host'⟩ =
          .ok r) := by
  have hpos := hg.bytesPerCluster_pos
  have hinv : ∀ {o : Iter (Cursor σ) (Except Unit ℕ × BlockHost σ)},
      v.readStep pages bufferAddress n cur = .ok o →
      ∃ host', Transferred v pages bufferAddress (v.skipOffset cur.dataOffset).2 e cur host' ∧
        o = v.follow n cur e host' := by
    intro o ho
    obtain ⟨hnone, -⟩ | ⟨e', he', ⟨hne, p, -, halloc⟩ | hhost⟩ := readStep_inv hg hcur ho
    · rw [he] at hnone
      cases hnone
    · obtain rfl := Option.some.inj (he.symm.trans he')
      have hsome := hpages.resolve_left hne
      rw [halloc] at hsome
      cases hsome
    · obtain rfl := Option.some.inj (he.symm.trans he')
      exact hhost
  obtain hdone | ⟨cur', m', -, hnext, hloop⟩ := loop_eq_ok h
  · obtain ⟨host', ht, hfollow⟩ := hinv hdone
    obtain ⟨hhost, hend⟩ := follow_eq_done hfollow.symm
    refine ⟨host', ht, ⟨[], by rw [hhost]; rfl⟩, fun hn y hy => ?_⟩
    obtain ⟨hlast, -⟩ | ⟨hnone, -⟩ := hend
    · exact absurd hlast hn
    · cases hnone.symm.trans hy
  · obtain ⟨host', ht, hfollow⟩ := hinv hnext
    obtain ⟨y, hy, rfl⟩ := follow_eq_next hfollow.symm
    refine ⟨host', ht, readLoop_accesses hg hpos hloop, fun _ y' hy' => ⟨m', ?_⟩⟩
    obtain rfl := Option.some.inj (hy.symm.trans hy')
    exact hloop

/-- A direct transfer that is recorded in a run that stays inside is inside. -/
theorem size_le_of_staysInside (hg : v.Geometry) {m : ℕ} {cur : Cursor σ}
    {r : Except Unit ℕ × BlockHost σ} (hinside : StaysInside pages bufferAddress length host r.2)
    (h : loop (v.readStep pages bufferAddress n) m cur = .ok r)
    (hcur : cur.dataOffset < v.bytesPerCluster) (hd : (v.skipOffset cur.dataOffset).2 = 0)
    {new : List Access} (hnew : cur.host.memory.accesses = new ++ host.memory.accesses) {e : Extent}
    (he : v.extent n 0 0 cur.cluster = some e) : cur.bufferPointer + e.size ≤ length := by
  obtain ⟨host', ht, ⟨new', hnew'⟩, -⟩ := readLoop_first hg hcur h (by rwa [hd]) (.inl hd)
  obtain ⟨new₁, haccesses, hnew₁⟩ := ht.accesses
  obtain ⟨all, hall, hrange, -⟩ := hinside.confined.accesses
  rw [hnew', haccesses, hnew₁ hd, hnew, ← List.append_assoc, ← List.append_assoc,
    List.append_cancel_right_eq] at hall
  have hmem : (⟨bufferAddress + cur.bufferPointer, e.size, false⟩ : Access) ∈ all := by
    rw [← hall]
    simp
  have hsub := hrange _ hmem rfl
  have hsize := extent_size_pos hg he
  have hlast := hsub (show bufferAddress + cur.bufferPointer + e.size - 1 ∈ Set.Ico _ _ from
    ⟨by simp only; omega, by simp only; omega⟩)
  have := hlast.2
  omega

/-- If the loop stays inside of the buffer, all transfers fit. -/
theorem fits_of_staysInside (hg : v.Geometry) (hd₀ : d₀ < v.bytesPerCluster)
    {r : Except Unit ℕ × BlockHost σ} (hinside : StaysInside pages bufferAddress length host r.2)
    (h : loop (v.readStep pages bufferAddress n) maxIterations ⟨d₀, x, 0, host⟩ = .ok r) :
    v.Fits pages host.pages n (v.skipOffset d₀).2 x length := by
  have hpos := hg.bytesPerCluster_pos
  -- every later transfer is one that the loop has come to
  have hreached : ∀ {y bytes : ℕ}, v.Later n (v.firstExtent pages host.pages n (v.skipOffset d₀).2 x)
      (v.extent n 0 0) y bytes → ∃ m host' new,
        loop (v.readStep pages bufferAddress n) m ⟨0, y, bytes, host'⟩ = .ok r ∧
          host'.memory.accesses = new ++ host.memory.accesses := by
    intro y bytes hlater
    induction hlater with
    | first he hn hy =>
      rw [firstExtent, Option.bind_eq_some_iff] at he
      obtain ⟨e, he, hif⟩ := he
      split_ifs at hif with hpages
      obtain rfl := Option.some.inj hif
      obtain ⟨host', ht, -, hnext⟩ := readLoop_first hg hd₀ h he hpages
      obtain ⟨new, hnew, -⟩ := ht.accesses
      rw [Nat.zero_add] at hnext
      obtain ⟨m, hm⟩ := hnext hn _ hy
      exact ⟨m, host', new, hm, hnew⟩
    | next hlater he hn hy ih =>
      obtain ⟨m, host₁, new₁, hloop, hnew₁⟩ := ih
      have hd : (v.skipOffset 0).2 = 0 := by rw [skipOffset_zero]
      obtain ⟨host', ht, -, hnext⟩ := readLoop_first hg hpos hloop
        (by simp only; rwa [hd]) (.inl hd)
      obtain ⟨new, hnew, -⟩ := ht.accesses
      obtain ⟨m', hm'⟩ := hnext hn _ hy
      exact ⟨m', host', new ++ new₁, hm', by rw [hnew, hnew₁, List.append_assoc]⟩
  refine ⟨fun hd e he => ?_, fun y bytes e hlater he => ?_⟩
  · rw [hd] at he
    have := size_le_of_staysInside hg hinside h hd₀ hd (List.nil_append _).symm he
    simpa using this
  · obtain ⟨m, host', new, hloop, hnew⟩ := hreached hlater
    exact size_le_of_staysInside hg hinside hloop hpos (by rw [skipOffset_zero]) hnew he

end Loop

/-- Where the clusters of the file, the offset and the length may be so that nothing outside of the buffer
is written. -/
def ReadFits (v : Fat32) (pages : Pages σ) (p : σ) (file : FileInfo) (offset length : ℕ) : Prop :=
  ∀ n cluster, clampLength file offset length = .ok (some n) →
    v.skipClusters (offset / v.bytesPerCluster) file.entryCluster = some cluster →
    v.Fits pages p n (v.skipOffset (offset % v.bytesPerCluster)).2 cluster length

/-- A read that has returned : there is nothing to read, or the clusters end before the offset, or the loop
has returned. -/
theorem read_inv {length : ℕ} {host : BlockHost σ} {r : Except Unit ℕ × BlockHost σ}
    (h : v.read pages file bufferAddress offset length host = .ok r) :
    (r.2 = host ∧ ∀ n cluster, clampLength file offset length = .ok (some n) →
      v.skipClusters (offset / v.bytesPerCluster) file.entryCluster ≠ some cluster) ∨
    ∃ n cluster, clampLength file offset length = .ok (some n) ∧
      v.skipClusters (offset / v.bytesPerCluster) file.entryCluster = some cluster ∧
      loop (v.readStep pages bufferAddress n) maxIterations
        ⟨offset % v.bytesPerCluster, cluster, 0, host⟩ = .ok r := by
  simp only [read, Exec.bind_eq_ok] at h
  obtain ⟨clamped, hclamp, h⟩ := h
  cases clamped with
  | none =>
    cases h
    refine .inl ⟨rfl, fun n cluster hn => ?_⟩
    rw [hclamp] at hn
    cases hn
  | some n =>
    obtain ⟨hnone, rfl⟩ | ⟨cluster, hcluster, hloop⟩ := transfer_inv (inside_eq_ok h)
    · refine .inl ⟨rfl, fun n' cluster _ => ?_⟩
      rw [hnone]
      simp
    · exact .inr ⟨n, cluster, hclamp, hcluster, hloop⟩

/-- A read whose transfers fit stays inside of its buffer. -/
theorem read_staysInside (hg : v.Geometry) {length : ℕ} {host : BlockHost σ}
    {r : Except Unit ℕ × BlockHost σ}
    (h : v.read pages file bufferAddress offset length host = .ok r)
    (hfits : v.ReadFits pages host.pages file offset length) :
    StaysInside pages bufferAddress length host r.2 := by
  obtain ⟨hhost, -⟩ | ⟨n, cluster, hclamp, hcluster, hloop⟩ := read_inv h
  · rw [hhost]
    exact StaysInside.refl pages bufferAddress length host host.pages
  · exact staysInside_of_fits hg (Nat.mod_lt offset hg.bytesPerCluster_pos) (clampLength_le hclamp).1
      (hfits n cluster hclamp hcluster) hloop

/-- A read that stays inside of its buffer has only transfers that fit. -/
theorem readFits_of_staysInside (hg : v.Geometry) {length : ℕ} {host : BlockHost σ}
    {r : Except Unit ℕ × BlockHost σ}
    (h : v.read pages file bufferAddress offset length host = .ok r)
    (hinside : StaysInside pages bufferAddress length host r.2) :
    v.ReadFits pages host.pages file offset length := by
  intro n' cluster' hn' hc'
  obtain ⟨-, hnone⟩ | ⟨n, cluster, hclamp, hcluster, hloop⟩ := read_inv h
  · exact absurd hc' (hnone n' cluster' hn')
  · obtain rfl : n = n' := Option.some.inj (Except.ok.inj (hclamp.symm.trans hn'))
    obtain rfl : cluster = cluster' := Option.some.inj (hcluster.symm.trans hc')
    exact fits_of_staysInside hg (Nat.mod_lt offset hg.bytesPerCluster_pos) hinside hloop

/-- A read stays inside of its buffer exactly if the sectors it transfers do. -/
theorem read_inside_iff (hg : v.Geometry) {length : ℕ} {host : BlockHost σ}
    {r : Except Unit ℕ × BlockHost σ}
    (h : v.read pages file bufferAddress offset length host = .ok r) :
    StaysInside pages bufferAddress length host r.2 ↔
      v.ReadFits pages host.pages file offset length :=
  ⟨readFits_of_staysInside hg h, read_staysInside hg h⟩

/-- One byte is read from a file of three clusters. -/
theorem exists_readByte {offset : ℕ} (hoffset : offset < 1536) :
    ∃ r, (stepVolume 1 4).read onePage ⟨2, 1536⟩ 0x40000000 offset 1 blankHost = .ok r := by
  have hf : (stepVolume 1 4).HasClusters ⟨2, 1536⟩ (fun i => 1 * i + 2) 3 :=
    stepVolume_hasClusters 1 3 (by decide) (by decide) (by decide)
  obtain ⟨r, hr, -⟩ := read_content (stepVolume_geometry 1 4) hf bounceBuffers_onePage
    (show 0x40000000 + 1 ≤ 2 ^ 64 by decide) le_rfl (show offset + 1 < 2 ^ 64 by omega)
    (.inr (.inl fun i _ _ => by simp only; omega)) blankHost
  exact ⟨r, hr⟩

theorem read_inside_iff_byte :
    ∃ r, (stepVolume 1 4).read onePage ⟨2, 1536⟩ 0x40000000 700 1 blankHost = .ok r ∧
      (StaysInside onePage 0x40000000 1 blankHost r.2 ↔
        (stepVolume 1 4).ReadFits onePage () ⟨2, 1536⟩ 700 1) := by
  obtain ⟨r, hr⟩ := exists_readByte (show 700 < 1536 by decide)
  exact ⟨r, hr, read_inside_iff (stepVolume_geometry 1 4) hr⟩

/-- The first byte of a file is read with the whole sector. -/
theorem read_not_inside :
    ∃ r, (stepVolume 1 4).read onePage ⟨2, 1536⟩ 0x40000000 0 1 blankHost = .ok r ∧
      ¬StaysInside onePage 0x40000000 1 blankHost r.2 := by
  obtain ⟨r, hr⟩ := exists_readByte (show 0 < 1536 by decide)
  refine ⟨r, hr, fun hinside => ?_⟩
  obtain ⟨-, hnone⟩ | ⟨n, cluster, hclamp, hcluster, hloop⟩ := read_inv hr
  · exact hnone 1 2 rfl rfl
  · cases hclamp
    cases hcluster
    have hfits := fits_of_staysInside (stepVolume_geometry 1 4) (by decide) hinside hloop
    exact absurd (hfits.first rfl ⟨512, 1, 2⟩ rfl) (by decide)

end Fat32

end MiniVisor
