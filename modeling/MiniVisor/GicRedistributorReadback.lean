import MiniVisor.GicAffinity
import MiniVisor.GicReadback

/-!
# Reading back the registers of the redistributor

The case analysis of `write` has the bytes of `GICR_IPRIORITYR<n>`, and that of `read` does not : a
byte reads as 0. All other registers read back what was written, where the write returns
(`readsBack_iff`).
-/

namespace MiniVisor

open Machine Vgic

inductive RedistributorArray
  | ctlr
  | waker
  | group
  | enable
  | pending
  | active
  | priority
  | configuration
  | groupModifier
  deriving DecidableEq

namespace GicRedistributorMmio

/-- The registers. -/
def register (r : GicRedistributorMmio) : RedistributorArray → ℕ → BitVec 64
  | .ctlr, i => if i = 0 then r.ctlr.setWidth 64 else 0#64
  | .waker, i => if i = 0 then r.waker.setWidth 64 else 0#64
  | .group, i => if i = 0 then r.group.setWidth 64 else 0#64
  | .enable, i => if i = 0 then r.enable.setWidth 64 else 0#64
  | .pending, i => if i = 0 then r.pending.setWidth 64 else 0#64
  | .active, i => if i = 0 then r.active.setWidth 64 else 0#64
  | .priority, i => (r.priority.reg i).setWidth 64
  | .configuration, i => (r.configuration.reg i).setWidth 64
  | .groupModifier, i => if i = 0 then r.groupModifier.setWidth 64 else 0#64

/-- What a write names. A write to `GICR_WAKER` stores no value, but what follows from one of its bits. -/
def part (offset accessWidth : ℕ) : Option (RegisterPart RedistributorArray) :=
  if offset = gicrCtlr ∧ accessWidth = 32 then some ⟨.ctlr, 0, none⟩
  else if offset = gicrIgroupr0 ∧ accessWidth = 32 then some ⟨.group, 0, none⟩
  else if offset = gicrIsenabler0 ∧ accessWidth = 32 then some ⟨.enable, 0, none⟩
  else if offset = gicrIcenabler0 ∧ accessWidth = 32 then some ⟨.enable, 0, none⟩
  else if offset = gicrIspendr0 ∧ accessWidth = 32 then some ⟨.pending, 0, none⟩
  else if offset = gicrIcpendr0 ∧ accessWidth = 32 then some ⟨.pending, 0, none⟩
  else if offset = gicrIsactiver0 ∧ accessWidth = 32 then some ⟨.active, 0, none⟩
  else if offset = gicrIcactiver0 ∧ accessWidth = 32 then some ⟨.active, 0, none⟩
  else if gicrIpriorityr0 ≤ offset ∧ offset < gicrIpriorityr7 + 4 then
    if accessWidth = 8 then
      some ⟨.priority, (offset - gicrIpriorityr0) / 4, some (byteOf (offset - gicrIpriorityr0))⟩
    else if (offset - gicrIpriorityr0) % 4 = 0 ∧ accessWidth = 32 then
      some ⟨.priority, (offset - gicrIpriorityr0) / 4, none⟩
    else none
  else if GicDistributorMmio.inWindow gicrIcfgr0 gicrIcfgr1 offset ∧ accessWidth = 32 then
    some ⟨.configuration, (offset - gicrIcfgr0) / 4, none⟩
  else if offset = gicrIgrpmodr0 ∧ accessWidth = 32 then some ⟨.groupModifier, 0, none⟩
  else none

/-- What a read names. -/
def readPart (offset accessWidth : ℕ) : Option (RegisterPart RedistributorArray) :=
  if offset = gicrCtlr ∧ accessWidth = 32 then some ⟨.ctlr, 0, none⟩
  else if offset = gicrWaker ∧ accessWidth = 32 then some ⟨.waker, 0, none⟩
  else if offset = gicrIgroupr0 ∧ accessWidth = 32 then some ⟨.group, 0, none⟩
  else if (offset = gicrIsenabler0 ∨ offset = gicrIcenabler0) ∧ accessWidth = 32 then
    some ⟨.enable, 0, none⟩
  else if (offset = gicrIspendr0 ∨ offset = gicrIcpendr0) ∧ accessWidth = 32 then
    some ⟨.pending, 0, none⟩
  else if (offset = gicrIsactiver0 ∨ offset = gicrIcactiver0) ∧ accessWidth = 32 then
    some ⟨.active, 0, none⟩
  else if GicDistributorMmio.inWindow gicrIpriorityr0 gicrIpriorityr7 offset ∧ accessWidth = 32 then
    some ⟨.priority, (offset - gicrIpriorityr0) / 4, none⟩
  else if GicDistributorMmio.inWindow gicrIcfgr0 gicrIcfgr1 offset ∧ accessWidth = 32 then
    some ⟨.configuration, (offset - gicrIcfgr0) / 4, none⟩
  else if offset = gicrIgrpmodr0 ∧ accessWidth = 32 then some ⟨.groupModifier, 0, none⟩
  else none

/-- What a register that held `x` holds after a write of `v`. -/
def written (offset : ℕ) (x v : BitVec 64) : BitVec 64 :=
  if offset = gicrIsenabler0 ∨ offset = gicrIspendr0 ∨ offset = gicrIsactiver0 then x ||| v
  else if offset = gicrIcenabler0 ∨ offset = gicrIcpendr0 ∨ offset = gicrIcactiver0 then x &&& ~~~v
  else v

/-- What a read returns where `readPart` names `p`. -/
def readOf (r : GicRedistributorMmio) (offset accessWidth : ℕ) :
    Option (RegisterPart RedistributorArray) → Exec (BitVec 64)
  | some p => .ok (p.value r.register)
  | none =>
    .ok (if offset = gicrTyper ∧ (accessWidth = 32 ∨ accessWidth = 64) then r.generateTyper
      else if offset = gicrTyper + 4 ∧ accessWidth = 32 then r.generateTyper >>> 32
      else if offset = gicrPidr2 ∧ accessWidth = 32 then gicRevision <<< 4 else 0#64)

/-- The interrupts whose bits are set in `P` and in a write of `v` can be delivered : the CPU of the
redistributor is the current one, or an SGI can name it. -/
def DeliversSafely (r : GicRedistributorMmio) (cpu : Cpu) (P : BitVec 32) (v : BitVec 64) : Prop :=
  r.waker &&& gicrWakerChildrenAsleep = 0#32 → r.affinity ≠ mpidrToAffinity cpu.mpidrEl1 → ∀ b,
    v.getLsbD b = true → P.getLsbD b = true → r.groupModifier.getLsbD b = false →
      aff0 r.affinity < 16#64

/-- The condition, on the state before it, under which a write does not trap. -/
def WriteSafe (r : GicRedistributorMmio) (cpu : Cpu) (offset accessWidth : ℕ) (v : BitVec 64) : Prop :=
  (accessWidth = 32 → offset = gicrIsenabler0 → r.DeliversSafely cpu r.pending v) ∧
    (accessWidth = 32 → offset = gicrIspendr0 → r.DeliversSafely cpu r.enable v)

variable {r r' : GicRedistributorMmio} {cpu cpu' : Cpu} {offset w : ℕ} {v : BitVec 64}

/-! ## Reads -/

/-- `read` follows `readPart`. -/
theorem read_eq (r : GicRedistributorMmio) (offset w : ℕ) :
    r.read offset w = r.readOf offset w (readPart offset w) := by
  by_cases htyper : offset = gicrTyper ∧ (w = 32 ∨ w = 64)
  · obtain ⟨rfl, rfl | rfl⟩ := htyper
    · rfl
    · rfl
  by_cases hhigh : offset = gicrTyper + 4 ∧ w = 32
  · obtain ⟨rfl, rfl⟩ := hhigh
    rfl
  by_cases hpidr : offset = gicrPidr2 ∧ w = 32
  · obtain ⟨rfl, rfl⟩ := hpidr
    rfl
  unfold read readPart
  refine branch (r.readOf offset w) (fun _ => rfl) fun _ => ?_
  rw [if_neg htyper, if_neg hhigh]
  refine branch _ (fun _ => rfl) fun _ => ?_
  rw [if_neg hpidr]
  refine branch _ (fun _ => rfl) fun _ => ?_
  refine branch _ (fun _ => rfl) fun _ => ?_
  refine branch _ (fun _ => rfl) fun _ => ?_
  refine branch _ (fun _ => rfl) fun _ => ?_
  refine branch _ (fun h => ?_) fun _ => ?_
  · rw [Bank.get_of_lt (DistributorAccess.index_lt h.1 (by decide))]
    rfl
  refine branch _ (fun h => ?_) fun _ => ?_
  · rw [Bank.get_of_lt (DistributorAccess.index_lt h.1 (by decide))]
    rfl
  refine branch _ (fun _ => rfl) fun _ => ?_
  rw [readOf, if_neg htyper, if_neg hhigh, if_neg hpidr]
  rfl

theorem register_lt (r : GicRedistributorMmio) (a : RedistributorArray) (i : ℕ) :
    (r.register a i).toNat < 2 ^ 32 := by
  have hword : ∀ u : BitVec 32, (u.setWidth 64).toNat < 2 ^ 32 := fun u => by
    rw [BitVec.toNat_setWidth]
    exact (Nat.mod_le _ _).trans_lt u.isLt
  have hif : ∀ u : BitVec 32, (if i = 0 then u.setWidth 64 else 0#64).toNat < 2 ^ 32 := fun u => by
    split_ifs
    · exact hword u
    · decide
  cases a
  case priority => exact hword _
  case configuration => exact hword _
  all_goals exact hif _

/-- Every register is read as a whole, with 32 bits. -/
theorem readPart_width {p : RegisterPart RedistributorArray} (hp : readPart offset w = some p) :
    w = 32 ∧ p.byte = none := by
  unfold readPart at hp
  iterate 9
    refine eq_branch hp (fun h hp => ?_) fun _ hp => ?_
    · obtain rfl := Option.some.inj hp
      exact ⟨h.2, rfl⟩
  cases hp

/-- What a read returns has its width, except for `GICR_TYPER`. -/
theorem read_fits_iff :
    (∀ value, r.read offset w = .ok value → value.toNat < 2 ^ w) ↔
      (offset = gicrTyper → w = 32 → sameAffinity r.affinity 0#64) := by
  rw [← generateTyper_lt_iff]
  rw [read_eq]
  cases hp : readPart offset w with
  | some p =>
    obtain ⟨rfl, hbyte⟩ := readPart_width hp
    refine iff_of_true (fun value h => ?_) ?_
    · obtain rfl := Except.ok.inj h
      rw [RegisterPart.value, hbyte]
      exact r.register_lt _ _
    · rintro rfl -
      have hnone : readPart gicrTyper 32 = none := rfl
      rw [hnone] at hp
      cases hp
  | none =>
    simp only [readOf, Except.ok.injEq, forall_eq']
    by_cases htyper : offset = gicrTyper ∧ (w = 32 ∨ w = 64)
    · rw [if_pos htyper]
      obtain ⟨rfl, rfl | rfl⟩ := htyper
      · exact ⟨fun h _ _ => h, fun h => h rfl rfl⟩
      · exact iff_of_true r.generateTyper.isLt (by omega)
    rw [if_neg htyper]
    refine iff_of_true ?_ fun ho hw' => absurd ⟨ho, .inl hw'⟩ htyper
    split_ifs with hhigh hpidr
    · rw [hhigh.2, BitVec.toNat_ushiftRight, Nat.shiftRight_eq_div_pow]
      have := r.generateTyper.isLt
      omega
    · rw [hpidr.2]
      decide
    · exact Nat.two_pow_pos w
/-! ## Scans -/

/-- Triggering `n` does not trap. -/
def TriggerSafe (r : GicRedistributorMmio) (cpu : Cpu) (n : ℕ) : Prop :=
  r.waker &&& gicrWakerChildrenAsleep = 0#32 → r.enable.getLsbD n = true →
    r.groupModifier.getLsbD n = false → r.affinity ≠ mpidrToAffinity cpu.mpidrEl1 →
      aff0 r.affinity < 16#64

theorem triggerInterrupt_returns_iff {n : ℕ} (hn : n < 32) (p : Option (BitVec 32)) :
    Exec.Returns (r.triggerInterrupt cpu n p) ↔ r.TriggerSafe cpu n := by
  rw [triggerInterrupt_eq hn]
  unfold TriggerSafe
  split_ifs with h0 h1 h2 h3
  · simp [h0]
  · rcases h1 with h1 | h1 <;> simp [h1]
  · simp [h2]
  · simp [h3]
  · simp only [not_or, Bool.not_eq_false, Bool.not_eq_true] at h1
    simp [not_not.mp h0, h1, h2, h3]

/-- Making an interrupt pending that is pending changes nothing. -/
theorem setPending_of_pending {n : ℕ} (hn : n < 32) (h : r.pending.getLsbD n = true) :
    r.setPending n = r := by
  have hreg : r.pending ||| (1#32 <<< n) = r.pending := by
    ext i hi
    rw [BitVec.getElem_or, ← BitVec.getLsbD_eq_getElem (x := 1#32 <<< n), getLsbD_one_shiftLeft hn]
    by_cases hin : i = n
    · subst hin
      have hbit : r.pending[i] = true := h
      rw [hbit, Bool.true_or]
    · rw [decide_eq_false hin, Bool.or_false]
  rw [setPending, hreg]

/-- A scan that triggers interrupts only that are pending already changes no register, and returns
if each of them can be delivered. -/
theorem scan_spec (cpu : Cpu) {test : GicRedistributorMmio → ℕ → Exec Bool} {T : ℕ → Bool}
    (htest : ∀ q m, m < 32 → test { r with toInjectInterrupt := q } m = .ok (T m))
    (hv : v.toNat < 2 ^ 32)
    (hpending : ∀ b, v.getLsbD b = true → T b = true → r.pending.getLsbD b = true) :
    (Exec.Returns (r.scan test cpu v) ↔
      ∀ b, v.getLsbD b = true → T b = true → r.TriggerSafe cpu b) ∧
    ∀ s, r.scan test cpu v = .ok s → ∃ q, s.1 = { r with toInjectInterrupt := q } := by
  have hscan := loop_bits (f := scanStep test) (N := 32)
    (P := fun m => T m = true → r.pending.getLsbD m = true)
    (S := fun m => T m = true → r.TriggerSafe cpu m)
    (I := fun s => (∃ q, s.1 = { r with toInjectInterrupt := q }) ∧ s.2.mpidrEl1 = cpu.mpidrEl1)
    (fun n s => by simp [scanStep]) (fun m v s hm h0 hlow => ?_) (fun m v s hm h0 hlow hP hI => ?_) 32 33
    0 v (r, cpu) hv (by decide) (by decide) (by simpa using hpending) ⟨⟨_, rfl⟩, rfl⟩
  · refine ⟨hscan.1.trans ?_, fun s hs => (hscan.2 s hs).1⟩
    simp only [Nat.zero_add]
  · have hskip : scanBit s.1 test s.2 m v = .ok s :=
      if_pos ((GicDistributorMmio.and_one_eq_zero v).mpr hlow)
    have hmore : ¬(32 ≤ m ∨ v = 0#64) := not_or.mpr ⟨by omega, h0⟩
    simp only [scanStep, if_neg hmore, hskip, Exec.ok_bind, Exec.pure_eq_ok]
  · obtain ⟨e, c⟩ := s
    obtain ⟨⟨q, rfl⟩, hmpidr⟩ := hI
    have hmore : ¬(32 ≤ m ∨ v = 0#64) := not_or.mpr ⟨by omega, h0⟩
    have hset : ¬v &&& 1#64 = 0#64 := by simp [GicDistributorMmio.and_one_eq_zero, hlow]
    simp only [scanStep, if_neg hmore, scanBit, if_neg hset, htest q m hm, Exec.ok_bind]
    cases hT : T m with
    | false => exact .inl ⟨nofun, _, ⟨⟨q, rfl⟩, hmpidr⟩, rfl⟩
    | true =>
      have hp : ({ r with toInjectInterrupt := q } : GicRedistributorMmio).setPending m =
          { r with toInjectInterrupt := q } := setPending_of_pending hm (hP hT)
      have hsafe : ({ r with toInjectInterrupt := q } : GicRedistributorMmio).TriggerSafe c m ↔
          r.TriggerSafe cpu m := by
        rw [TriggerSafe, TriggerSafe, show c.mpidrEl1 = cpu.mpidrEl1 from hmpidr]
      have hiff : Exec.Returns (triggerInterrupt { r with toInjectInterrupt := q } c m none) ↔ _ :=
        triggerInterrupt_returns_iff hm none
      cases hrun : triggerInterrupt { r with toInjectInterrupt := q } c m none with
      | error t =>
        rw [hrun] at hiff
        exact .inr ⟨fun hs => Exec.not_returns_error t (hiff.mpr (hsafe.mpr (hs rfl))), t, rfl⟩
      | ok s' =>
        rw [hrun] at hiff
        refine .inl ⟨fun _ => hsafe.mp (hiff.mp ⟨s', rfl⟩), s', ?_, rfl⟩
        obtain ⟨r', c'⟩ := s'
        obtain ⟨-, rfl, rfl⟩ | ⟨-, -, rfl, rfl⟩ | ⟨-, -, -, rfl, rfl⟩ | ⟨-, -, -, rfl, rfl⟩ :=
          triggerInterrupt_cases hrun
        · exact ⟨⟨q, rfl⟩, hmpidr⟩
        · exact ⟨⟨q, hp⟩, hmpidr⟩
        · exact ⟨⟨q, hp⟩, hmpidr⟩
        · exact ⟨⟨_, by rw [hp]⟩, hmpidr⟩

/-! ## Writes -/

/-- A write that enables interrupts. -/
theorem isenabler_spec (hv : v.toNat < 2 ^ 32) :
    (Exec.Returns (scan { r with enable := r.enable ||| v.setWidth 32 } getPending cpu v) ↔
      r.DeliversSafely cpu r.pending v) ∧
    ∀ s, scan { r with enable := r.enable ||| v.setWidth 32 } getPending cpu v = .ok s →
      ∃ q, s.1 = { r with enable := r.enable ||| v.setWidth 32, toInjectInterrupt := q } := by
  obtain ⟨hiff, hkeep⟩ := scan_spec (r := { r with enable := r.enable ||| v.setWidth 32 }) cpu
    (T := fun m => r.pending.getLsbD m) (fun _ _ hm => getPending_eq hm) hv
    (fun _ _ hm => hm)
  refine ⟨hiff.trans ⟨fun h hawake haff b hb hp hg => ?_, fun h b hb hp hawake _ hg haff => ?_⟩, hkeep⟩
  · have hb32 := DistributorAccess.lt_of_getLsbD hv hb
    exact h b hb hp hawake (by simp [hb, hb32]) hg haff
  · exact h hawake haff b hb hp hg

/-- A write that makes interrupts pending. -/
theorem ispendr_spec (hv : v.toNat < 2 ^ 32) :
    (Exec.Returns (scan { r with pending := r.pending ||| v.setWidth 32 } getEnable cpu v) ↔
      r.DeliversSafely cpu r.enable v) ∧
    ∀ s, scan { r with pending := r.pending ||| v.setWidth 32 } getEnable cpu v = .ok s →
      ∃ q, s.1 = { r with pending := r.pending ||| v.setWidth 32, toInjectInterrupt := q } := by
  obtain ⟨hiff, hkeep⟩ := scan_spec (r := { r with pending := r.pending ||| v.setWidth 32 }) cpu
    (T := fun m => r.enable.getLsbD m) (fun _ _ hm => getEnable_eq hm) hv
    (fun b hb _ => by
      have hb32 := DistributorAccess.lt_of_getLsbD hv hb
      simp [hb, hb32])
  refine ⟨hiff.trans ⟨fun h hawake haff b hb he hg => ?_, fun h b hb he hawake _ hg haff => ?_⟩, hkeep⟩
  · exact h b hb he hawake he hg haff
  · exact h hawake haff b hb he hg

theorem write_returns_iff (r : GicRedistributorMmio) (cpu : Cpu) (offset w : ℕ) (v : BitVec 64)
    (hv : v.toNat < 2 ^ w) :
    Exec.Returns (r.write cpu offset w v) ↔ r.WriteSafe cpu offset w v := by
  have quiet {x : Exec (GicRedistributorMmio × Cpu)} (hx : Exec.Returns x)
      (he : offset ≠ gicrIsenabler0) (hp : offset ≠ gicrIspendr0) :
      Exec.Returns x ↔ r.WriteSafe cpu offset w v :=
    iff_of_true hx ⟨fun _ h => absurd h he, fun _ h => absurd h hp⟩
  unfold write
  refine Exec.returns_ite (fun h => ?_) fun _ => ?_
  · obtain ⟨rfl, rfl⟩ := h
    exact quiet (Exec.returns_ok _) (by decide) (by decide)
  unfold writeRegister
  have away {c : ℕ} (h : offset = c) (he : c ≠ gicrIsenabler0) (hp : c ≠ gicrIspendr0) :
      offset ≠ gicrIsenabler0 ∧ offset ≠ gicrIspendr0 :=
    h ▸ ⟨he, hp⟩
  have after (h : gicrIpriorityr0 ≤ offset) : offset ≠ gicrIsenabler0 ∧ offset ≠ gicrIspendr0 :=
    ⟨(lt_of_lt_of_le (by decide) h).ne', (lt_of_lt_of_le (by decide) h).ne'⟩
  refine Exec.returns_ite (fun h => ?_) fun _ => ?_
  · obtain ⟨he, hp⟩ := away h.1 (by decide) (by decide)
    split_ifs
    · exact quiet (Exec.returns_ok _) he hp
    · exact quiet (Exec.returns_ok _) he hp
  refine Exec.returns_ite (fun h => ?_) fun _ => ?_
  · obtain ⟨he, hp⟩ := away h.1 (by decide) (by decide)
    exact quiet (Exec.returns_ok _) he hp
  refine Exec.returns_ite (fun h => ?_) fun he => ?_
  · obtain ⟨rfl, rfl⟩ := h
    exact (isenabler_spec hv).1.trans
      ⟨fun h => ⟨fun _ _ => h, fun _ hp => absurd hp (by decide)⟩, fun h => h.1 rfl rfl⟩
  refine Exec.returns_ite (fun h => ?_) fun _ => ?_
  · obtain ⟨he, hp⟩ := away h.1 (by decide) (by decide)
    exact quiet (Exec.returns_ok _) he hp
  refine Exec.returns_ite (fun h => ?_) fun hp => ?_
  · obtain ⟨rfl, rfl⟩ := h
    exact (ispendr_spec hv).1.trans
      ⟨fun h => ⟨fun _ he => absurd he (by decide), fun _ _ => h⟩, fun h => h.2 rfl rfl⟩
  refine Exec.returns_ite (fun h => ?_) fun _ => ?_
  · obtain ⟨he, hp⟩ := away h.1 (by decide) (by decide)
    exact quiet (Exec.returns_ok _) he hp
  refine Exec.returns_ite (fun h => ?_) fun _ => ?_
  · obtain ⟨he, hp⟩ := away h.1 (by decide) (by decide)
    exact quiet (Exec.returns_ok _) he hp
  refine Exec.returns_ite (fun h => ?_) fun _ => ?_
  · obtain ⟨he, hp⟩ := away h.1 (by decide) (by decide)
    exact quiet (Exec.returns_ok _) he hp
  refine Exec.returns_ite (fun h => ?_) fun _ => ?_
  · obtain ⟨he, hp⟩ := after h.1
    have hlo : gicrIpriorityr7 + 4 = gicrIpriorityr0 + 32 := rfl
    have hi : (offset - gicrIpriorityr0) / 4 < 8 := by omega
    dsimp only
    refine Exec.returns_ite (fun _ => quiet (DistributorAccess.returns_modify _ hi _ _) he hp) fun _ => ?_
    refine Exec.returns_ite (fun _ => quiet (DistributorAccess.returns_set _ hi _ _) he hp) fun _ => ?_
    exact quiet (Exec.returns_ok _) he hp
  refine Exec.returns_ite (fun h => ?_) fun _ => ?_
  · obtain ⟨he, hp⟩ := after (le_trans (by decide) h.1.1)
    exact quiet (DistributorAccess.returns_set _ (DistributorAccess.index_lt h.1 (by decide)) _ _) he hp
  have hsafe : r.WriteSafe cpu offset w v :=
    ⟨fun hw h => absurd ⟨h, hw⟩ he, fun hw h => absurd ⟨h, hw⟩ hp⟩
  exact Exec.returns_ite (fun _ => iff_of_true (Exec.returns_ok _) hsafe)
    fun _ => iff_of_true (Exec.returns_ok _) hsafe

theorem written_set (h : offset = gicrIsenabler0 ∨ offset = gicrIspendr0 ∨ offset = gicrIsactiver0)
    (x : BitVec 64) : written offset x v = x ||| v :=
  if_pos h

theorem written_clear (h : offset = gicrIcenabler0 ∨ offset = gicrIcpendr0 ∨ offset = gicrIcactiver0)
    (x : BitVec 64) : written offset x v = x &&& ~~~v := by
  obtain rfl | rfl | rfl := h <;> rfl

theorem written_plain (h : offset < gicrIsenabler0 ∨ gicrIcactiver0 < offset) (x : BitVec 64) :
    written offset x v = v := by
  have hne : ∀ {c}, gicrIsenabler0 ≤ c → c ≤ gicrIcactiver0 → offset ≠ c := by
    intro c hlo hhi hc
    omega
  refine (if_neg ?_).trans (if_neg ?_)
  · rintro (h | h | h)
    · exact hne (by decide) (by decide) h
    · exact hne (by decide) (by decide) h
    · exact hne (by decide) (by decide) h
  · rintro (h | h | h)
    · exact hne (by decide) (by decide) h
    · exact hne (by decide) (by decide) h
    · exact hne (by decide) (by decide) h

/-- The byte of the priority registers that belongs to interrupt `n`. -/
theorem part_priority {n : ℕ} (hn : n < 32) :
    part (gicrIpriorityr0 + n) 8 = some ⟨.priority, n / 4, some (Fin.ofNat 4 n)⟩ := by
  have narrow {p : Prop} {k : ℕ} (hk : 8 ≠ k) : ¬(p ∧ 8 = k) := fun h => hk h.2
  have hlast : gicrIpriorityr7 + 4 = gicrIpriorityr0 + 32 := rfl
  unfold part
  rw [if_neg (narrow (by decide)), if_neg (narrow (by decide)), if_neg (narrow (by decide)),
    if_neg (narrow (by decide)), if_neg (narrow (by decide)), if_neg (narrow (by decide)),
    if_neg (narrow (by decide)), if_neg (narrow (by decide)),
    if_pos ⟨Nat.le_add_right _ _, by omega⟩, if_pos rfl, Nat.add_sub_cancel_left]

/-- What a write has done where `part` names `p`. -/
def WroteTo (r r' : GicRedistributorMmio) (offset : ℕ) (v : BitVec 64) :
    Option (RegisterPart RedistributorArray) → Prop
  | some p => r'.affinity = r.affinity ∧
    Stores r.register r'.register p (written offset (p.value r.register) v)
  | none => True

/-- A register without an index. -/
theorem wroteTo_single {a : RedistributorArray} (haff : r'.affinity = r.affinity)
    (hx : r'.register a 0 = written offset (r.register a 0) v)
    (hzero : ∀ j, j ≠ 0 → r'.register a j = r.register a j)
    (hother : ∀ s, s ≠ a → r'.register s = r.register s) :
    WroteTo r r' offset v (some ⟨a, 0, none⟩) :=
  ⟨haff, stores_single hx hzero hother⟩

/-- A write to a priority register or to one of its bytes. -/
theorem writePriority_wroteTo {i : ℕ} {b : Fin 4} (hv : v.toNat < 2 ^ w)
    (ho : gicrIcactiver0 < offset)
    (h : (if w = 8 then do
        let priority ← r.priority.modify i fun r =>
          (r &&& ~~~(0xFF#32 <<< (b.val * 8))) ||| (v <<< (b.val * 8)).setWidth 32
        pure ({ r with priority }, cpu)
      else if b.val = 0 ∧ w = 32 then do
        let priority ← r.priority.set i (v.setWidth 32)
        pure ({ r with priority }, cpu)
      else pure (r, cpu)) = (.ok (r', cpu') : Exec _)) :
    r.WroteTo r' offset v (if w = 8 then some ⟨.priority, i, some b⟩
      else if b.val = 0 ∧ w = 32 then some ⟨.priority, i, none⟩ else none) := by
  refine ok_branch h (fun hw h => ?_) fun _ h => ?_
  · obtain ⟨bank, hb, h⟩ := Exec.bind_eq_ok.mp h
    obtain ⟨-, rfl⟩ := Bank.modify_eq_ok.mp hb
    obtain ⟨rfl, -⟩ := Prod.mk.inj (Except.ok.inj h)
    rw [WroteTo, written_plain (.inr ho)]
    exact ⟨rfl, stores_byte (B := r.priority) (by rwa [hw] at hv) (fun _ => rfl) (fun _ => rfl)
      fun s hs => by cases s <;> first | rfl | contradiction⟩
  refine ok_branch h (fun hw h => ?_) fun _ h => ?_
  · obtain ⟨bank, hb, h⟩ := Exec.bind_eq_ok.mp h
    obtain ⟨-, rfl⟩ := Bank.set_eq_ok.mp hb
    obtain ⟨rfl, -⟩ := Prod.mk.inj (Except.ok.inj h)
    refine ⟨rfl, stores_bank (B := r.priority) (fun _ => rfl) (fun _ => rfl)
      (fun s hs => by cases s <;> first | rfl | contradiction) ?_⟩
    rw [written_plain (.inr ho), setWidth_narrow (by rwa [hw.2] at hv)]
  · exact trivial

/-- `write` follows `part`. -/
theorem write_wroteTo (hv : v.toNat < 2 ^ w) (h : r.write cpu offset w v = .ok (r', cpu')) :
    r.WroteTo r' offset v (part offset w) := by
  have plain (x : BitVec 64) (hw : w = 32)
      (ho : offset < gicrIsenabler0 ∨ gicrIcactiver0 < offset) :
      (v.setWidth 32).setWidth 64 = written offset x v := by
    rw [written_plain ho, setWidth_narrow (by rwa [hw] at hv)]
  have setBits (u : BitVec 32) (hw : w = 32)
      (ho : offset = gicrIsenabler0 ∨ offset = gicrIspendr0 ∨ offset = gicrIsactiver0) :
      (u ||| v.setWidth 32).setWidth 64 = written offset (u.setWidth 64) v := by
    rw [written_set ho, setWidth_or_narrow (by rwa [hw] at hv)]
  have clearBits (u : BitVec 32)
      (ho : offset = gicrIcenabler0 ∨ offset = gicrIcpendr0 ∨ offset = gicrIcactiver0) :
      (u &&& ~~~(v.setWidth 32)).setWidth 64 = written offset (u.setWidth 64) v := by
    rw [written_clear ho, setWidth_and_not]
  unfold write at h
  unfold part
  refine ok_branch h (fun ho h => ?_) fun _ h => ?_
  · obtain ⟨rfl, rfl⟩ := ho
    obtain ⟨rfl, -⟩ := Prod.mk.inj (Except.ok.inj h)
    exact wroteTo_single rfl (plain _ rfl (.inl (by decide)))
      (fun j hj => by simp only [register, if_neg hj])
      fun s hs => by cases s <;> first | rfl | contradiction
  unfold writeRegister at h
  refine Exec.ok_of_ite h (fun ho h => ?_) fun _ h => ?_
  · obtain ⟨rfl, rfl⟩ := ho
    exact trivial
  refine ok_branch h (fun ho h => ?_) fun _ h => ?_
  · obtain ⟨rfl, -⟩ := Prod.mk.inj (Except.ok.inj h)
    exact wroteTo_single rfl (plain _ ho.2 (.inl (ho.1.trans_lt (by decide))))
      (fun j hj => by simp only [register, if_neg hj])
      fun s hs => by cases s <;> first | rfl | contradiction
  refine ok_branch h (fun ho h => ?_) fun _ h => ?_
  · obtain ⟨q, hq⟩ := (isenabler_spec (by rwa [ho.2] at hv)).2 _ h
    dsimp only at hq
    subst hq
    exact wroteTo_single rfl (setBits _ ho.2 (.inl ho.1))
      (fun j hj => by simp only [register, if_neg hj])
      fun s hs => by cases s <;> first | rfl | contradiction
  refine ok_branch h (fun ho h => ?_) fun _ h => ?_
  · obtain ⟨rfl, -⟩ := Prod.mk.inj (Except.ok.inj h)
    exact wroteTo_single rfl (clearBits _ (.inl ho.1))
      (fun j hj => by simp only [register, if_neg hj])
      fun s hs => by cases s <;> first | rfl | contradiction
  refine ok_branch h (fun ho h => ?_) fun _ h => ?_
  · obtain ⟨q, hq⟩ := (ispendr_spec (by rwa [ho.2] at hv)).2 _ h
    dsimp only at hq
    subst hq
    exact wroteTo_single rfl (setBits _ ho.2 (.inr (.inl ho.1)))
      (fun j hj => by simp only [register, if_neg hj])
      fun s hs => by cases s <;> first | rfl | contradiction
  refine ok_branch h (fun ho h => ?_) fun _ h => ?_
  · obtain ⟨rfl, -⟩ := Prod.mk.inj (Except.ok.inj h)
    exact wroteTo_single rfl (clearBits _ (.inr (.inl ho.1)))
      (fun j hj => by simp only [register, if_neg hj])
      fun s hs => by cases s <;> first | rfl | contradiction
  refine ok_branch h (fun ho h => ?_) fun _ h => ?_
  · obtain ⟨rfl, -⟩ := Prod.mk.inj (Except.ok.inj h)
    exact wroteTo_single rfl (setBits _ ho.2 (.inr (.inr ho.1)))
      (fun j hj => by simp only [register, if_neg hj])
      fun s hs => by cases s <;> first | rfl | contradiction
  refine ok_branch h (fun ho h => ?_) fun _ h => ?_
  · obtain ⟨rfl, -⟩ := Prod.mk.inj (Except.ok.inj h)
    exact wroteTo_single rfl (clearBits _ (.inr (.inr ho.1)))
      (fun j hj => by simp only [register, if_neg hj])
      fun s hs => by cases s <;> first | rfl | contradiction
  refine ok_branch h (fun ho h => ?_) fun _ h => ?_
  · have hbyte : offset - gicrIpriorityr0 - (offset - gicrIpriorityr0) / 4 * 4 =
        (Fin.ofNat 4 (offset - gicrIpriorityr0)).val := by
      rw [Fin.val_ofNat]
      omega
    dsimp only at h
    rw [hbyte] at h
    exact writePriority_wroteTo hv (lt_of_lt_of_le (by decide) ho.1) h
  refine ok_branch h (fun ho h => ?_) fun _ h => ?_
  · obtain ⟨b, hb, h⟩ := Exec.bind_eq_ok.mp h
    obtain ⟨-, rfl⟩ := Bank.set_eq_ok.mp hb
    obtain ⟨rfl, -⟩ := Prod.mk.inj (Except.ok.inj h)
    exact ⟨rfl, stores_bank (B := r.configuration) (fun _ => rfl) (fun _ => rfl)
      (fun s hs => by cases s <;> first | rfl | contradiction)
      (plain _ ho.2 (.inr (lt_of_lt_of_le (by decide) ho.1.1)))⟩
  refine ok_branch h (fun ho h => ?_) fun _ h => ?_
  · obtain ⟨rfl, -⟩ := Prod.mk.inj (Except.ok.inj h)
    exact wroteTo_single rfl (plain _ ho.2 (.inr (lt_of_lt_of_le (by decide) ho.1.ge)))
      (fun j hj => by simp only [register, if_neg hj])
      fun s hs => by cases s <;> first | rfl | contradiction
  · exact trivial

/-! ## The result -/

/-- The access is a write to a byte of a priority register. -/
def PriorityByte (offset accessWidth : ℕ) : Prop :=
  accessWidth = 8 ∧ gicrIpriorityr0 ≤ offset ∧ offset < gicrIpriorityr7 + 4

/-- `read` knows no bytes. -/
theorem read_byte (r : GicRedistributorMmio) (offset : ℕ) : r.read offset 8 = .ok 0#64 := by
  simp [read]

/-- A write to a byte names a byte. -/
theorem part_byte {p : RegisterPart RedistributorArray} (hb : PriorityByte offset w)
    (hp : part offset w = some p) : p.byte ≠ none := by
  obtain ⟨rfl, hlo, hhi⟩ := hb
  obtain ⟨n, rfl⟩ := Nat.exists_eq_add_of_le hlo
  have hlast : gicrIpriorityr7 + 4 = gicrIpriorityr0 + 32 := rfl
  rw [part_priority (by omega)] at hp
  cases hp
  exact nofun

/-- Apart from bytes, the two case analyses agree. -/
theorem readPart_of_part {p : RegisterPart RedistributorArray} (hp : part offset w = some p)
    (hb : ¬PriorityByte offset w) : readPart offset w = some p := by
  have past {c : ℕ} (h : gicrIpriorityr0 ≤ offset) (hc : c < gicrIpriorityr0) :
      ¬(offset = c ∧ w = 32) :=
    fun hc' => absurd hc'.1 (hc.trans_le h).ne'
  have pastTwo {c c' : ℕ} (h : gicrIpriorityr0 ≤ offset) (hc : c < gicrIpriorityr0)
      (hc' : c' < gicrIpriorityr0) : ¬((offset = c ∨ offset = c') ∧ w = 32) := by
    rintro ⟨rfl | rfl, -⟩
    · exact absurd h (not_le.mpr hc)
    · exact absurd h (not_le.mpr hc')
  unfold part at hp
  refine eq_branch hp (fun h hp => ?_) fun _ hp => ?_
  · obtain ⟨rfl, rfl⟩ := h
    rw [← hp]
    rfl
  refine eq_branch hp (fun h hp => ?_) fun _ hp => ?_
  · obtain ⟨rfl, rfl⟩ := h
    rw [← hp]
    rfl
  refine eq_branch hp (fun h hp => ?_) fun _ hp => ?_
  · obtain ⟨rfl, rfl⟩ := h
    rw [← hp]
    rfl
  refine eq_branch hp (fun h hp => ?_) fun _ hp => ?_
  · obtain ⟨rfl, rfl⟩ := h
    rw [← hp]
    rfl
  refine eq_branch hp (fun h hp => ?_) fun _ hp => ?_
  · obtain ⟨rfl, rfl⟩ := h
    rw [← hp]
    rfl
  refine eq_branch hp (fun h hp => ?_) fun _ hp => ?_
  · obtain ⟨rfl, rfl⟩ := h
    rw [← hp]
    rfl
  refine eq_branch hp (fun h hp => ?_) fun _ hp => ?_
  · obtain ⟨rfl, rfl⟩ := h
    rw [← hp]
    rfl
  refine eq_branch hp (fun h hp => ?_) fun _ hp => ?_
  · obtain ⟨rfl, rfl⟩ := h
    rw [← hp]
    rfl
  refine eq_branch hp (fun h hp => ?_) fun _ hp => ?_
  · refine eq_branch hp (fun h8 _ => absurd ⟨h8, h⟩ hb) fun _ hp => ?_
    refine eq_branch hp (fun h32 hp => ?_) fun _ hp => nomatch hp
    have hwindow : GicDistributorMmio.inWindow gicrIpriorityr0 gicrIpriorityr7 offset := by
      have hhi : gicrIpriorityr7 = gicrIpriorityr0 + 28 := rfl
      exact ⟨h.1, by omega⟩
    unfold readPart
    rw [if_neg (past h.1 (by decide)), if_neg (past h.1 (by decide)), if_neg (past h.1 (by decide)),
      if_neg (pastTwo h.1 (by decide) (by decide)), if_neg (pastTwo h.1 (by decide) (by decide)),
      if_neg (pastTwo h.1 (by decide) (by decide)), if_pos ⟨hwindow, h32.2⟩]
    exact hp
  refine eq_branch hp (fun h hp => ?_) fun _ hp => ?_
  · have hlo : gicrIpriorityr0 ≤ offset := le_trans (by decide) h.1.1
    have hout : ¬(GicDistributorMmio.inWindow gicrIpriorityr0 gicrIpriorityr7 offset ∧ w = 32) :=
      fun hc => absurd (h.1.1.trans hc.1.2) (by decide)
    unfold readPart
    rw [if_neg (past hlo (by decide)), if_neg (past hlo (by decide)), if_neg (past hlo (by decide)),
      if_neg (pastTwo hlo (by decide) (by decide)), if_neg (pastTwo hlo (by decide) (by decide)),
      if_neg (pastTwo hlo (by decide) (by decide)), if_neg hout, if_pos h]
    exact hp
  refine eq_branch hp (fun h hp => ?_) fun _ hp => nomatch hp
  · obtain ⟨rfl, rfl⟩ := h
    rw [← hp]
    rfl

/-- A register of the redistributor reads back what was written to it, if and only if the write
returns and is not one of a byte with another value than 0. -/
theorem readsBack_iff (r : GicRedistributorMmio) (cpu : Cpu) (offset w : ℕ) (v : BitVec 64)
    (hv : v.toNat < 2 ^ w) (hpart : (part offset w).isSome) :
    (∃ r' cpu', r.write cpu offset w v = .ok (r', cpu') ∧
        ReadsBack read part readPart r r' offset w (written offset · v)) ↔
      r.WriteSafe cpu offset w v ∧ ¬(PriorityByte offset w ∧ v ≠ 0#64) := by
  rw [← write_returns_iff r cpu offset w v hv]
  constructor
  · rintro ⟨r', cpu', hrun, ⟨x, ⟨-, hread⟩, -⟩, -⟩
    refine ⟨⟨_, hrun⟩, fun ⟨⟨hw, hlo, hhi⟩, hne⟩ => hne ?_⟩
    subst hw
    rw [read_byte, written_plain (.inr (lt_of_lt_of_le (by decide) hlo))] at hread
    exact (Except.ok.inj hread).symm
  · rintro ⟨⟨⟨r', cpu'⟩, hrun⟩, hbyte⟩
    obtain ⟨p, hp⟩ := Option.isSome_iff_exists.mp hpart
    have hwrote := write_wroteTo hv hrun
    rw [hp] at hwrote
    obtain ⟨haff, hsame, hother⟩ := hwrote
    have hread : ∀ offset' w', readPart offset' w' = some p → r.read offset' w' = .ok
        (p.value r.register) ∧
        r'.read offset' w' = .ok (written offset (p.value r.register) v) := by
      intro offset' w' hp'
      rw [read_eq, read_eq, hp', ← hsame]
      exact ⟨rfl, rfl⟩
    refine ⟨r', cpu', hrun, ?_, fun offset' w' happart => ?_⟩
    · by_cases hb : PriorityByte offset w
      · have hv0 : v = 0#64 := not_not.mp fun hne => hbyte ⟨hb, hne⟩
        have hnone : ∀ offset' w', readPart offset' w' ≠ some p := fun offset' w' hq =>
          part_byte hb hp (readPart_width hq).2
        obtain ⟨rfl, hlo, -⟩ := hb
        refine ⟨0#64, ⟨read_byte r offset, ?_⟩, fun offset' w' hq => absurd (hq.trans hp)
          (hnone offset' w')⟩
        rw [read_byte, written_plain (.inr (lt_of_lt_of_le (by decide) hlo)), hv0]
      · exact ⟨_, hread offset w (readPart_of_part hp hb), fun offset' w' hq => hread offset' w'
          (hq.trans hp)⟩
    · rw [read_eq, read_eq]
      cases hq : readPart offset' w' with
      | none => rw [readOf, readOf, generateTyper, generateTyper, haff]
      | some q => rw [readOf, readOf, hother q (happart p q hp hq)]

end GicRedistributorMmio

/-- The registers of both controllers read back what was written to them, if and only if the write
returns and is not one to a byte of a priority register of the redistributor. -/
theorem gicReadsBack_iff (d : GicDistributorMmio) (r : GicRedistributorMmio) (cpu : Cpu)
    (offset w : ℕ) (v : BitVec 64) (hv : v.toNat < 2 ^ w) :
    ((GicDistributorMmio.part offset w).isSome →
      ((∃ d' cpu', d.write cpu offset w v = .ok (d', cpu') ∧
          ReadsBack GicDistributorMmio.read GicDistributorMmio.part GicDistributorMmio.part d d' offset w
            (GicDistributorMmio.written offset · v)) ↔
        DistributorAccess.Safe d cpu (.write offset w v))) ∧
    ((GicRedistributorMmio.part offset w).isSome →
      ((∃ r' cpu', r.write cpu offset w v = .ok (r', cpu') ∧
          ReadsBack GicRedistributorMmio.read GicRedistributorMmio.part GicRedistributorMmio.readPart
            r r' offset w (GicRedistributorMmio.written offset · v)) ↔
        r.WriteSafe cpu offset w v ∧ ¬(GicRedistributorMmio.PriorityByte offset w ∧ v ≠ 0#64))) :=
  ⟨GicDistributorMmio.readsBack_iff d cpu offset w v hv,
    GicRedistributorMmio.readsBack_iff r cpu offset w v hv⟩

/-- The priority of INTID 32 reads back, and that of INTID 0 does not. -/
theorem gicReadsBack_iff_byte :
    (∃ d' cpu', GicDistributorMmio.new.write ⟨0, 0, fun _ => 0#64, []⟩ 0x420 8 0xa0#64 =
        .ok (d', cpu') ∧
      ReadsBack GicDistributorMmio.read GicDistributorMmio.part GicDistributorMmio.part
        GicDistributorMmio.new d' 0x420 8 (GicDistributorMmio.written 0x420 · 0xa0#64)) ∧
    ¬∃ r' cpu', (GicRedistributorMmio.new 0#64).write ⟨0, 0, fun _ => 0#64, []⟩ 0x10400 8 0xa0#64 =
        .ok (r', cpu') ∧
      ReadsBack GicRedistributorMmio.read GicRedistributorMmio.part GicRedistributorMmio.readPart
        (GicRedistributorMmio.new 0#64) r' 0x10400 8
        (GicRedistributorMmio.written 0x10400 · 0xa0#64) := by
  constructor
  · refine ((gicReadsBack_iff GicDistributorMmio.new (.new 0#64) ⟨0, 0, fun _ => 0#64, []⟩ 0x420 8
      0xa0#64 (by decide)).1 (by decide)).mpr ?_
    exact DistributorAccess.safe_write_of_quiet (fun h => absurd h.1 (by decide)) (by decide)
      (by decide)
  · intro h
    have hsafe := ((gicReadsBack_iff GicDistributorMmio.new (.new 0#64) ⟨0, 0, fun _ => 0#64, []⟩
      0x10400 8 0xa0#64 (by decide)).2 (by decide)).mp h
    exact hsafe.2 ⟨⟨rfl, by decide, by decide⟩, by decide⟩

/-- A guest that writes the priority `0xa0` of INTID 0 as a byte reads it as 0, and as `0xa0` in the
word. -/
theorem not_gicReadsBack : ∃ r', (GicRedistributorMmio.new 0#64).write ⟨0, 0, fun _ => 0#64, []⟩
      0x10400 8 0xa0#64 = .ok (r', ⟨0, 0, fun _ => 0#64, []⟩) ∧
    r'.read 0x10400 8 = .ok 0#64 ∧ r'.read 0x10400 32 = .ok 0xa0#64 :=
  ⟨_, rfl, rfl, rfl⟩

end MiniVisor
