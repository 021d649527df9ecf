import MiniVisor.Bits
import MiniVisor.VgicUniqueness

/-!
# Guest accesses that stop the distributor

A guest access to the emulated distributor traps when an index leaves its array or an
assertion fails. `DistributorAccess.Safe` is the exact condition on the state before the
access (`DistributorAccess.returns_iff`), and it names the three ways to fail :

* the window of `GICD_IGRPMODR` reaches to `0xF7C`, past the 32 registers it has;
* setting an enable or pending bit can deliver an INTID from 1020 on, which has no priority
  and no routing register;
* it can deliver an interrupt routed to a remote CPU whose `aff0` is 16 or more.

`runAccesses_returns_iff` is the same for a run of accesses from `new`. A bit scan shifts a
64-bit value right in each iteration, so it never runs out of fuel.
-/

namespace MiniVisor

open Machine Vgic

/-! ## The bits of an interrupt -/

/-- The bit of interrupt `n` in an array of one bit per interrupt. -/
def Bank.bit (b : Bank 32 32) (n : ℕ) : Bool :=
  (b.reg (n / 32)).getLsbD (n % 32)

theorem and_one_ne_zero (x : BitVec 32) : (x &&& 1#32 != 0#32) = x.getLsbD 0 := by
  rw [BitVec.and_one_eq_setWidth_ofBool_getLsbD]
  cases x.getLsbD 0 <;> decide

theorem and_one_eq_one (x : BitVec 32) : x &&& 1#32 = 1#32 ↔ x.getLsbD 0 = true := by
  rw [BitVec.and_one_eq_setWidth_ofBool_getLsbD]
  cases x.getLsbD 0 <;> decide

namespace GicDistributorMmio

variable {d : GicDistributorMmio} {cpu : Cpu} {n : ℕ}

theorem field_one (b : Bank 32 32) (hn : n < 1024) :
    field b 1 1#32 n = .ok ((b.reg (n / 32) >>> (n % 32)) &&& 1#32) := by
  simp [field, Bank.get_of_lt (show n / 32 < 32 by omega)]

theorem getEnable_eq (hn : n < 1024) : d.getEnable n = .ok (d.enable.bit n) := by
  simp only [getEnable, field_one _ hn, Exec.ok_bind, Exec.pure_eq_ok]
  exact congrArg _ ((and_one_ne_zero _).trans (by simp [Bank.bit]))

theorem getPending_eq (hn : n < 1024) : d.getPending n = .ok (d.pending.bit n) := by
  simp only [getPending, field_one _ hn, Exec.ok_bind, Exec.pure_eq_ok]
  exact congrArg _ ((and_one_ne_zero _).trans (by simp [Bank.bit]))

/-- The group modifier of `n` selects the secure group. -/
theorem getGroupModifier_eq (hn : n < 1024) :
    ∃ r, d.getGroupModifier n = .ok r ∧ (r = 1#32 ↔ d.groupModifier.bit n = true) := by
  refine ⟨_, field_one _ hn, (and_one_eq_one _).trans ?_⟩
  simp [Bank.bit]

theorem getPriority_error (h : 1020 ≤ n) : d.getPriority n = .error .outOfBounds := by
  simp [getPriority, field, Bank.get_of_le (show 255 ≤ n / 4 by omega)]

/-! ## Triggering an interrupt -/

/-- `d` with `n` pending. -/
def setPending (d : GicDistributorMmio) (n : ℕ) : GicDistributorMmio :=
  { d with pending := d.pending.update (n / 32) (d.pending.reg (n / 32) ||| (1#32 <<< (n % 32))) }

theorem changePendingStatus_true (hn : n < 1024) :
    d.changePendingStatus n true = .ok (d.setPending n) := by
  simp [changePendingStatus, changeBit, Bank.modify_of_lt (show n / 32 < 32 by omega), setPending]

@[simp] theorem setPending_ctlr : (d.setPending n).ctlr = d.ctlr := rfl
@[simp] theorem setPending_enable : (d.setPending n).enable = d.enable := rfl
@[simp] theorem setPending_groupModifier : (d.setPending n).groupModifier = d.groupModifier := rfl
@[simp] theorem setPending_router : (d.setPending n).router = d.router := rfl
@[simp] theorem setPending_toInjectInterrupt :
    (d.setPending n).toInjectInterrupt = d.toInjectInterrupt := rfl

/-- The list register entry that delivers `n`. -/
def listEntry (d : GicDistributorMmio) (n : ℕ) (p : Option (BitVec 32)) : BitVec 64 :=
  createListRegisterEntry (BitVec.ofNat 32 n) ((d.group.reg (n / 32) >>> (n % 32)) &&& 1#32)
    ((d.priority.reg (n / 4) >>> (n % 4 * 8)) &&& 0xFF#32) p

/-- Everything `triggerInterrupt` can do for an interrupt the registers know. -/
theorem triggerInterrupt_eq (hn : n < 1024) (p : Option (BitVec 32)) :
    d.triggerInterrupt cpu n p =
      if d.ctlr &&& gicdCtlrEnableGrp1ns = 0#32 then .ok (d, cpu)
      else if d.enable.bit n = false ∨ d.groupModifier.bit n = true then .ok (d.setPending n, cpu)
      else if 1020 ≤ n then .error .outOfBounds
      else if d.ctlr &&& gicdCtlrAreS = 0#32 then .ok (d.setPending n, cpu)
      else if sameAffinity (d.router.reg n) cpu.mpidrEl1 then
        .ok (d.setPending n,
          { cpu with lr := addVirtualInterrupt cpu.ichVtrEl2 cpu.lr (d.listEntry n p) })
      else if aff0 (d.router.reg n) < 16#64 then
        .ok ({ d.setPending n with toInjectInterrupt := d.toInjectInterrupt ++ [d.listEntry n p] },
          { cpu with iccSgi1rEl1 := iccSgi1r (d.router.reg n) :: cpu.iccSgi1rEl1 })
      else .error .assertion := by
  obtain ⟨m, hm, hm1⟩ := (d.setPending n).getGroupModifier_eq hn
  have hm2 : m = 1#32 ↔ d.groupModifier.bit n = true := hm1
  have hg : (d.setPending n).getGroup n = .ok ((d.group.reg (n / 32) >>> (n % 32)) &&& 1#32) :=
    field_one _ hn
  have he : (d.setPending n).getEnable n = .ok (d.enable.bit n) := getEnable_eq hn
  simp only [triggerInterrupt, changePendingStatus_true hn, he, hm, hg, Exec.ok_bind,
    Exec.pure_eq_ok]
  by_cases h0 : d.ctlr &&& gicdCtlrEnableGrp1ns = 0#32
  · simp only [h0, if_true]
  by_cases h1 : d.enable.bit n = false
  · simp [h0, h1]
  by_cases h2 : d.groupModifier.bit n = true
  · simp [h0, h1, h2, hm2.mpr h2]
  by_cases h3 : 1020 ≤ n
  · simp [h0, h1, h2, hm2, h3, getPriority_error h3]
  have hp : (d.setPending n).getPriority n =
      .ok ((d.priority.reg (n / 4) >>> (n % 4 * 8)) &&& 0xFF#32) := by
    simp [getPriority, field, Bank.get_of_lt (show n / 4 < 255 by omega), setPending]
  have hr : (d.setPending n).getRouter n = .ok (d.router.reg n) := Bank.get_of_lt (not_le.mp h3)
  by_cases h4 : d.ctlr &&& gicdCtlrAreS = 0#32
  · simp [h0, h1, h2, hm2, h3, hp, hr, h4]
  by_cases h5 : sameAffinity (d.router.reg n) cpu.mpidrEl1
  · simp [h0, h1, h2, hm2, h3, hp, hr, h4, h5, listEntry]
  by_cases h6 : aff0 (d.router.reg n) < 16#64
  · simp [h0, h1, h2, hm2, h3, hp, hr, h4, h5, h6, listEntry, Machine.assert]
  · simp [h0, h1, h2, hm2, h3, hp, hr, h4, h5, Machine.assert, h6]

/-- The registers that deliver `n` exist, and a remote target is one of the 16 CPUs that a
software-generated interrupt can name. -/
def Deliverable (d : GicDistributorMmio) (cpu : Cpu) (n : ℕ) : Prop :=
  n < 1020 ∧ (d.ctlr &&& gicdCtlrAreS ≠ 0#32 → ¬sameAffinity (d.router.reg n) cpu.mpidrEl1 →
    aff0 (d.router.reg n) < 16#64)

/-- Triggering `n` does not trap. -/
def TriggerSafe (d : GicDistributorMmio) (cpu : Cpu) (n : ℕ) : Prop :=
  d.ctlr &&& gicdCtlrEnableGrp1ns ≠ 0#32 → d.enable.bit n = true →
    d.groupModifier.bit n = false → d.Deliverable cpu n

theorem triggerInterrupt_returns_iff (hn : n < 1024) (p : Option (BitVec 32)) :
    Exec.Returns (d.triggerInterrupt cpu n p) ↔ d.TriggerSafe cpu n := by
  rw [triggerInterrupt_eq hn]
  unfold TriggerSafe Deliverable
  split_ifs with h0 h1 h2 h3 h4 h5
  · simp [h0]
  · rcases h1 with h1 | h1 <;> simp [h1]
  · simp only [not_or, Bool.not_eq_false, Bool.not_eq_true] at h1
    simp [h0, h1, h2]
  · simp [h3, not_le.mp h2]
  · simp [h4, not_le.mp h2]
  · simp [h5, not_le.mp h2]
  · simp only [not_or, Bool.not_eq_false, Bool.not_eq_true] at h1
    simp [h0, h1, h3, h4, h5]

/-- What the delivery of an interrupt leaves alone. -/
structure Keeps (d d' : GicDistributorMmio) (cpu cpu' : Cpu) : Prop where
  ctlr : d'.ctlr = d.ctlr
  enable : d'.enable = d.enable
  groupModifier : d'.groupModifier = d.groupModifier
  router : d'.router = d.router
  mpidrEl1 : cpu'.mpidrEl1 = cpu.mpidrEl1

theorem Keeps.triggerSafe_iff {d' : GicDistributorMmio} {cpu' : Cpu} (h : Keeps d d' cpu cpu') :
    d'.TriggerSafe cpu' n ↔ d.TriggerSafe cpu n := by
  simp only [TriggerSafe, Deliverable, h.ctlr, h.enable, h.groupModifier, h.router, h.mpidrEl1]

theorem bit_update_of_ne (b : Bank 32 32) {m n : ℕ} (h : m ≠ n) (r : BitVec 32)
    (hr : ∀ i, i ≠ n % 32 → r.getLsbD i = (b.reg (n / 32)).getLsbD i) :
    (b.update (n / 32) r).bit m = b.bit m := by
  unfold Bank.bit
  by_cases hd : m / 32 = n / 32
  · rw [hd, Bank.update_reg_self, hr _ (by omega)]
  · rw [Bank.update_reg_of_ne _ hd]

theorem setPending_bit (m : ℕ) :
    (d.setPending n).pending.bit m = (d.pending.bit m || decide (m = n)) := by
  have hbit := getLsbD_one_shiftLeft (Nat.mod_lt n (show 0 < 32 by decide))
  by_cases h : m = n
  · subst h
    simp [setPending, Bank.bit, hbit]
  · rw [setPending, bit_update_of_ne _ h, decide_eq_false h, Bool.or_false]
    intro i hi
    simp [hbit, hi]

theorem triggerInterrupt_keeps {d' : GicDistributorMmio} {cpu' : Cpu} (hn : n < 1024)
    {p : Option (BitVec 32)} (h : d.triggerInterrupt cpu n p = .ok (d', cpu')) :
    Keeps d d' cpu cpu' ∧ ∀ m, m ≠ n → d'.pending.bit m = d.pending.bit m := by
  have hp : ∀ m, m ≠ n → (d.setPending n).pending.bit m = d.pending.bit m := by
    intro m hm
    simp [setPending_bit, hm]
  rw [triggerInterrupt_eq hn] at h
  split_ifs at h <;> cases h
  · exact ⟨⟨rfl, rfl, rfl, rfl, rfl⟩, fun _ _ => rfl⟩
  all_goals exact ⟨⟨rfl, rfl, rfl, rfl, rfl⟩, hp⟩

/-! ## The bit scans -/

/-- `test` reads a bit that delivering another interrupt does not change. -/
structure IsTest (test : GicDistributorMmio → ℕ → Exec Bool) (T : GicDistributorMmio → ℕ → Bool) :
    Prop where
  eq : ∀ d n, n < 1024 → test d n = .ok (T d n)
  keeps : ∀ (d d' : GicDistributorMmio) (cpu cpu' : Cpu) (n m : ℕ), m ≠ n → Keeps d d' cpu cpu' →
    (∀ m, m ≠ n → d'.pending.bit m = d.pending.bit m) → T d' m = T d m

theorem isTest_getPending : IsTest getPending fun d n => d.pending.bit n where
  eq _ _ hn := getPending_eq hn
  keeps _ _ _ _ _ m hm _ hp := hp m hm

theorem isTest_getEnable : IsTest getEnable fun d n => d.enable.bit n where
  eq _ _ hn := getEnable_eq hn
  keeps d d' _ _ _ m _ hk _ := by rw [hk.enable]

theorem and_one_eq_zero (x : BitVec 64) : x &&& 1#64 = 0#64 ↔ x.getLsbD 0 = false := by
  rw [BitVec.and_one_eq_setWidth_ofBool_getLsbD]
  cases x.getLsbD 0 <;> decide

/-- One interrupt of a scan. -/
theorem scanBit_returns_iff {test : GicDistributorMmio → ℕ → Exec Bool}
    {T : GicDistributorMmio → ℕ → Bool} (hT : IsTest test T) (hn : n < 1024) (value : BitVec 64) :
    Exec.Returns (scanBit d test cpu n value) ↔
      (value.getLsbD 0 = true → T d n = true → d.TriggerSafe cpu n) := by
  unfold scanBit
  rw [hT.eq d n hn, Exec.ok_bind]
  split_ifs with h0 h1
  · have hb := (and_one_eq_zero value).mp h0
    exact ⟨fun _ hc => absurd (hb.symm.trans hc) (by decide), fun _ => ⟨_, rfl⟩⟩
  · have hb : value.getLsbD 0 = true := by
      rwa [and_one_eq_zero, Bool.not_eq_false] at h0
    rw [triggerInterrupt_returns_iff hn]
    exact ⟨fun h _ _ => h, fun h => h hb h1⟩
  · exact ⟨fun _ _ hc => absurd hc h1, fun _ => ⟨_, rfl⟩⟩

theorem scanBit_keeps {test : GicDistributorMmio → ℕ → Exec Bool}
    {T : GicDistributorMmio → ℕ → Bool} (hT : IsTest test T) (hn : n < 1024) {value : BitVec 64}
    {d' : GicDistributorMmio} {cpu' : Cpu} (h : scanBit d test cpu n value = .ok (d', cpu')) :
    Keeps d d' cpu cpu' ∧ ∀ m, m ≠ n → d'.pending.bit m = d.pending.bit m := by
  unfold scanBit at h
  rw [hT.eq d n hn, Exec.ok_bind] at h
  split_ifs at h
  · cases h
    exact ⟨⟨rfl, rfl, rfl, rfl, rfl⟩, fun _ _ => rfl⟩
  · exact triggerInterrupt_keeps hn h
  · cases h
    exact ⟨⟨rfl, rfl, rfl, rfl, rfl⟩, fun _ _ => rfl⟩

/-- A scan of `k` bits returns exactly when every interrupt it triggers can be delivered. The
interrupts before have changed nothing that the later ones read. -/
theorem scan_returns_iff {test : GicDistributorMmio → ℕ → Exec Bool}
    {T : GicDistributorMmio → ℕ → Bool} (hT : IsTest test T) :
    ∀ (k fuel n : ℕ) (value : BitVec 64) (d : GicDistributorMmio) (cpu : Cpu),
      value.toNat < 2 ^ k → n + k ≤ 1024 → k < fuel →
      (Exec.Returns (loop (scanStep test) fuel ((n, value), d, cpu)) ↔
        ∀ b, value.getLsbD b = true → T d (n + b) = true → d.TriggerSafe cpu (n + b))
  | k, 0, n, value, d, cpu, hv, hn, hf => by omega
  | k, fuel + 1, n, value, d, cpu, hv, hn, hf => by
    by_cases h0 : value = 0#64
    · subst h0
      simp [loop, scanStep]
    obtain ⟨k, rfl⟩ : ∃ k', k = k' + 1 := by
      refine ⟨k - 1, ?_⟩
      rcases Nat.eq_zero_or_pos k with rfl | hk
      · exact absurd (BitVec.eq_of_toNat_eq (by simpa using hv)) h0
      · omega
    have hn' : n < 1024 := by omega
    have hbit : ∀ b, (value >>> 1).getLsbD b = value.getLsbD (b + 1) := by
      intro b
      rw [BitVec.getLsbD_ushiftRight, Nat.add_comm]
    cases hs : scanBit d test cpu n value with
    | error t =>
      have hno : ¬Exec.Returns (scanBit d test cpu n value) := by simp [hs]
      rw [scanBit_returns_iff hT hn'] at hno
      simp only [loop, scanStep, h0, if_false, hs, Exec.error_bind]
      constructor
      · intro h
        exact absurd h (Exec.not_returns_error t)
      · intro h
        exact absurd (fun h1 h2 => h 0 h1 h2) hno
    | ok s =>
      obtain ⟨d', cpu'⟩ := s
      obtain ⟨hk, hp⟩ := scanBit_keeps hT hn' hs
      have h1 := (scanBit_returns_iff hT hn' value).mp ⟨_, hs⟩
      simp only [loop, scanStep, h0, if_false, hs, Exec.ok_bind, Exec.pure_eq_ok]
      rw [scan_returns_iff hT k fuel (n + 1) (value >>> 1) d' cpu' ?_ (by omega) (by omega)]
      · constructor
        · intro h b hb hTb
          cases b with
          | zero => exact h1 hb hTb
          | succ b =>
            have hTb' : T d' (n + 1 + b) = true := by
              rw [hT.keeps d d' cpu cpu' n _ (by omega) hk hp]
              rwa [Nat.add_assoc, Nat.add_comm 1 b]
            have := hk.triggerSafe_iff.mp (h b (by rwa [hbit]) hTb')
            rwa [Nat.add_assoc, Nat.add_comm 1 b] at this
        · intro h b hb hTb
          rw [hT.keeps d d' cpu cpu' n _ (by omega) hk hp] at hTb
          rw [hbit] at hb
          rw [Nat.add_assoc, Nat.add_comm 1 b] at hTb ⊢
          exact hk.triggerSafe_iff.mpr (h (b + 1) hb hTb)
      · rw [BitVec.toNat_ushiftRight, Nat.shiftRight_eq_div_pow]
        omega

end GicDistributorMmio

/-! ## Accesses -/

/-- A guest access to the distributor's registers. -/
inductive DistributorAccess
  | read (offset accessWidth : ℕ)
  | write (offset accessWidth : ℕ) (value : BitVec 64)

namespace DistributorAccess

/-- The access stays below `MMIO_SIZE`, has a width the instruction set has, and a value that
fits it. -/
def Valid : DistributorAccess → Prop
  | read offset w => offset < GicDistributorMmio.mmioSize ∧ w ∈ [8, 16, 32, 64]
  | write offset w value =>
    offset < GicDistributorMmio.mmioSize ∧ w ∈ [8, 16, 32, 64] ∧ value.toNat < 2 ^ w

/-- The distributor after the access. -/
def exec (d : GicDistributorMmio) (cpu : Cpu) : DistributorAccess → Exec GicDistributorMmio
  | read offset w => do
    let _ ← d.read offset w
    pure d
  | write offset w value => do
    let (d, _) ← d.write cpu offset w value
    pure d

/-- The access is in the part of the `GICD_IGRPMODR` window that has no register. -/
def PastGroupModifiers (offset w : ℕ) : Prop :=
  w = 32 ∧ 0xD80 ≤ offset ∧ offset ≤ gicdIgrpmodr31

/-- Every interrupt `n` whose bit is set in a write of `value` to register `i`, and for which
`P` holds, can be delivered if it is not in the secure group. -/
def DeliversSafely (d : GicDistributorMmio) (cpu : Cpu) (P : ℕ → Prop) (i : ℕ) (value : BitVec 64) :
    Prop :=
  d.ctlr &&& gicdCtlrEnableGrp1ns ≠ 0#32 → ∀ b, value.getLsbD b = true → P (i * 32 + b) →
    d.groupModifier.bit (i * 32 + b) = false → d.Deliverable cpu (i * 32 + b)

/-- The condition, on the state before it, under which an access does not trap. -/
def Safe (d : GicDistributorMmio) (cpu : Cpu) : DistributorAccess → Prop
  | read offset w => ¬PastGroupModifiers offset w
  | write offset w value => ¬PastGroupModifiers offset w ∧
    (w = 32 → GicDistributorMmio.inWindow gicdIsenabler0 gicdIsenabler31 offset →
      DeliversSafely d cpu (d.pending.bit · = true) ((offset - gicdIsenabler0) / 4) value) ∧
    (w = 32 → GicDistributorMmio.inWindow gicdIspendr0 gicdIspendr31 offset →
      DeliversSafely d cpu (d.enable.bit · = true) ((offset - gicdIspendr0) / 4) value)

theorem returns_get {n w : ℕ} {β : Type} (b : Bank n w) {i : ℕ} (h : i < n) (f : BitVec w → β) :
    Exec.Returns (b.get i >>= fun r => pure (f r)) := by
  rw [Bank.get_of_lt h]
  exact Exec.returns_ok _

theorem returns_set {n w : ℕ} {β : Type} (b : Bank n w) {i : ℕ} (h : i < n) (v : BitVec w)
    (f : Bank n w → β) : Exec.Returns (b.set i v >>= fun r => pure (f r)) := by
  rw [Bank.set_of_lt h]
  exact Exec.returns_ok _

theorem returns_modify {n w : ℕ} {β : Type} (b : Bank n w) {i : ℕ} (h : i < n)
    (g : BitVec w → BitVec w) (f : Bank n w → β) :
    Exec.Returns (b.modify i g >>= fun r => pure (f r)) := by
  rw [Bank.modify_of_lt h]
  exact Exec.returns_ok _

/-- The index of a register inside its window. -/
theorem index_lt {lo hi offset n : ℕ} (h : GicDistributorMmio.inWindow lo hi offset)
    (hn : (hi - lo) / 4 < n) : (offset - lo) / 4 < n :=
  (Nat.div_le_div_right (Nat.sub_le_sub_right h.2 lo)).trans_lt hn

theorem read_returns_iff (d : GicDistributorMmio) (offset w : ℕ) :
    Exec.Returns (d.read offset w) ↔ ¬PastGroupModifiers offset w := by
  have skip {x : Exec (BitVec 64)} (hx : Exec.Returns x)
      (ho : offset < 0xD80 ∨ gicdIgrpmodr31 < offset ∨ w ≠ 32) :
      Exec.Returns x ↔ ¬PastGroupModifiers offset w := by
    refine iff_of_true hx fun ⟨hw, h1, h2⟩ => ?_
    omega
  unfold GicDistributorMmio.read
  -- The branches in the order of the source : two constants, then the windows.
  refine Exec.returns_ite (fun h => skip (Exec.returns_ok _)
    (.inl (h.1.trans_lt (by decide)))) fun _ => ?_
  refine Exec.returns_ite (fun h => skip (Exec.returns_ok _)
    (.inl (h.1.trans_lt (by decide)))) fun _ => ?_
  refine Exec.returns_ite (fun h => skip (returns_get _ (index_lt h.1 (by decide)) _)
    (.inl (h.1.2.trans_lt (by decide)))) fun _ => ?_
  refine Exec.returns_ite (fun h => skip (returns_get _ (index_lt h.1 (by decide)) _)
    (.inl (h.1.2.trans_lt (by decide)))) fun _ => ?_
  refine Exec.returns_ite (fun h => skip (returns_get _ (index_lt h.1 (by decide)) _)
    (.inl (h.1.2.trans_lt (by decide)))) fun _ => ?_
  refine Exec.returns_ite (fun h => skip (returns_get _ (index_lt h.1 (by decide)) _)
    (.inl (h.1.2.trans_lt (by decide)))) fun _ => ?_
  refine Exec.returns_ite (fun h => skip (returns_get _ (index_lt h.1 (by decide)) _)
    (.inl (h.1.2.trans_lt (by decide)))) fun _ => ?_
  refine Exec.returns_ite (fun h => skip (returns_get _ (index_lt h.1 (by decide)) _)
    (.inl (h.1.2.trans_lt (by decide)))) fun _ => ?_
  refine Exec.returns_ite (fun h => skip (returns_get _ (index_lt h.1 (by decide)) _)
    (.inl (h.1.2.trans_lt (by decide)))) fun _ => ?_
  refine Exec.returns_ite (fun h => ?_) fun _ => ?_
  · have hi : (offset - gicdIpriorityr0) / 4 < 255 := by
      simp only [gicdIpriorityr0, gicdIpriorityr254] at h ⊢
      omega
    have ho : offset < 0xD80 := h.2.trans_le (by decide)
    dsimp only
    refine Exec.returns_ite (fun _ => skip ?_ (.inl ho)) fun _ => ?_
    · simp [Bank.get_of_lt hi]
    refine Exec.returns_ite (fun _ => skip (returns_get _ hi _) (.inl ho)) fun _ => ?_
    exact skip (Exec.returns_ok _) (.inl ho)
  refine Exec.returns_ite (fun h => skip (returns_get _ (index_lt h.1 (by decide)) _)
    (.inl (h.1.2.trans_lt (by decide)))) fun _ => ?_
  refine Exec.returns_ite (fun h => ?_) fun hg => ?_
  · -- The window of the group modifiers is longer than their array.
    by_cases hi : (offset - gicdIgrpmodr0) / 4 < 32
    · refine skip (returns_get _ hi _) (.inl ?_)
      simp only [gicdIgrpmodr0] at hi
      omega
    · refine iff_of_false ?_ (not_not.mpr ⟨h.2, ?_, h.1.2⟩)
      · simp [Bank.get_of_le (not_lt.mp hi)]
      · simp only [gicdIgrpmodr0] at hi
        omega
  have hne : ¬PastGroupModifiers offset w := by
    rintro ⟨hw, h1, h2⟩
    exact hg ⟨⟨le_trans (by decide) h1, h2⟩, hw⟩
  refine Exec.returns_ite (fun h => iff_of_true ?_ hne) fun _ => ?_
  · refine ⟨_, Bank.get_of_lt ?_⟩
    have := h.1
    simp only [gicdIrouter0, gicdIrouter1019] at this ⊢
    omega
  exact Exec.returns_ite (fun _ => iff_of_true (Exec.returns_ok _) hne)
    fun _ => iff_of_true (Exec.returns_ok _) hne

/-- A write to a register that triggers nothing. -/
theorem safe_write_of_quiet {d : GicDistributorMmio} {cpu : Cpu} {offset w : ℕ} {value : BitVec 64}
    (hg : ¬PastGroupModifiers offset w)
    (he : w = 32 → ¬GicDistributorMmio.inWindow gicdIsenabler0 gicdIsenabler31 offset)
    (hp : w = 32 → ¬GicDistributorMmio.inWindow gicdIspendr0 gicdIspendr31 offset) :
    Safe d cpu (.write offset w value) :=
  ⟨hg, fun hw h => absurd h (he hw), fun hw h => absurd h (hp hw)⟩

/-- A bit that a write of `value` sets is one of the 32 bits of the register. -/
theorem lt_of_getLsbD {value : BitVec 64} {k b : ℕ} (hv : value.toNat < 2 ^ k)
    (hb : value.getLsbD b = true) : b < k := by
  by_contra hk
  have hlt : value.toNat < 2 ^ b := hv.trans_le (Nat.pow_le_pow_right (by decide) (not_lt.mp hk))
  simp [BitVec.getLsbD, Nat.testBit_lt_two_pow hlt] at hb

theorem bit_mul_add (b : Bank 32 32) {i j : ℕ} (hj : j < 32) :
    b.bit (i * 32 + j) = (b.reg i).getLsbD j := by
  rw [Bank.bit, show (i * 32 + j) / 32 = i by omega, show (i * 32 + j) % 32 = j by omega]

theorem isenabler_returns_iff {d : GicDistributorMmio} {cpu : Cpu} {value : BitVec 64} {i : ℕ}
    (hi : i < 32) (hv : value.toNat < 2 ^ 32) :
    Exec.Returns (do
      let enable ← d.enable.modify i (· ||| value.setWidth 32)
      GicDistributorMmio.scan { d with enable } GicDistributorMmio.getPending cpu (i * 32) value) ↔
      DeliversSafely d cpu (d.pending.bit · = true) i value := by
  rw [Bank.modify_of_lt hi, Exec.ok_bind, GicDistributorMmio.scan,
    GicDistributorMmio.scan_returns_iff GicDistributorMmio.isTest_getPending 32 _ _ _ _ _ hv
      (by omega) (by decide)]
  -- The write has just enabled the interrupts it scans.
  have he : ∀ b, value.getLsbD b = true →
      (d.enable.update i (d.enable.reg i ||| value.setWidth 32)).bit (i * 32 + b) = true := by
    intro b hb
    have hb32 := lt_of_getLsbD hv hb
    rw [bit_mul_add _ hb32, Bank.update_reg_self]
    simp [hb, hb32]
  constructor
  · intro h hc b hb hp hg
    exact h b hb hp hc (he b hb) hg
  · intro h b hb hp hc _ hg
    exact h hc b hb hp hg

theorem ispendr_returns_iff {d : GicDistributorMmio} {cpu : Cpu} {value : BitVec 64} {i : ℕ}
    (hi : i < 32) (hv : value.toNat < 2 ^ 32) :
    Exec.Returns (do
      let pending ← d.pending.modify i (· ||| value.setWidth 32)
      GicDistributorMmio.scan { d with pending } GicDistributorMmio.getEnable cpu (i * 4 * 8)
        value) ↔
      DeliversSafely d cpu (d.enable.bit · = true) i value := by
  rw [Bank.modify_of_lt hi, Exec.ok_bind, GicDistributorMmio.scan, Nat.mul_assoc i 4 8,
    GicDistributorMmio.scan_returns_iff GicDistributorMmio.isTest_getEnable 32 _ _ _ _ _ hv
      (by omega) (by decide)]
  constructor
  · intro h hc b hb he hg
    exact h b hb he hc he hg
  · intro h b hb _ hc he hg
    exact h hc b hb he hg

theorem write_returns_iff (d : GicDistributorMmio) (cpu : Cpu) (offset w : ℕ) (value : BitVec 64)
    (hv : value.toNat < 2 ^ w) :
    Exec.Returns (d.write cpu offset w value) ↔ Safe d cpu (.write offset w value) := by
  -- A register before the enables, between the two scanned windows, or after the pending bits.
  have quiet {x : Exec (GicDistributorMmio × Cpu)} (hx : Exec.Returns x)
      (hg : ¬PastGroupModifiers offset w)
      (ho : w = 32 → offset < gicdIsenabler0 ∨ (gicdIsenabler31 < offset ∧ offset < gicdIspendr0) ∨
        gicdIspendr31 < offset) :
      Exec.Returns x ↔ Safe d cpu (.write offset w value) := by
    refine iff_of_true hx (safe_write_of_quiet hg ?_ ?_) <;> intro hw hin
    · have := ho hw
      simp only [gicdIsenabler0, gicdIsenabler31, gicdIspendr0, gicdIspendr31] at this hin
      omega
    · have := ho hw
      simp only [gicdIsenabler0, gicdIsenabler31, gicdIspendr0, gicdIspendr31] at this hin
      omega
  have early (ho : offset < 0xD80) : ¬PastGroupModifiers offset w := fun h => by
    have := h.2.1
    omega
  unfold GicDistributorMmio.write
  refine Exec.returns_ite (fun h => quiet (Exec.returns_ok _) (early (h.1.trans_lt (by decide)))
    fun _ => .inl (h.1.trans_lt (by decide))) fun _ => ?_
  refine Exec.returns_ite (fun h => quiet (returns_set _ (index_lt h.1 (by decide)) _ _)
    (early (h.1.2.trans_lt (by decide))) fun _ => .inl (h.1.2.trans_lt (by decide))) fun _ => ?_
  refine Exec.returns_ite (fun h => ?_) fun he => ?_
  · rw [h.2] at hv
    refine (isenabler_returns_iff (index_lt h.1 (by decide)) hv).trans ?_
    refine ⟨fun hs => ⟨early (h.1.2.trans_lt (by decide)), fun _ _ => hs, fun _ hp => ?_⟩,
      fun hs => hs.2.1 h.2 h.1⟩
    exact absurd (hp.1.trans h.1.2) (by decide)
  refine Exec.returns_ite (fun h => quiet (returns_modify _ (index_lt h.1 (by decide)) _ _)
    (early (h.1.2.trans_lt (by decide))) fun _ => .inr (.inl ⟨lt_of_lt_of_le (by decide) h.1.1,
      h.1.2.trans_lt (by decide)⟩)) fun _ => ?_
  refine Exec.returns_ite (fun h => ?_) fun hp => ?_
  · rw [h.2] at hv
    refine (ispendr_returns_iff (index_lt h.1 (by decide)) hv).trans ?_
    refine ⟨fun hs => ⟨early (h.1.2.trans_lt (by decide)), fun _ he => ?_, fun _ _ => hs⟩,
      fun hs => hs.2.2 h.2 h.1⟩
    exact absurd (h.1.1.trans he.2) (by decide)
  refine Exec.returns_ite (fun h => quiet (returns_modify _ (index_lt h.1 (by decide)) _ _)
    (early (h.1.2.trans_lt (by decide)))
    fun _ => .inr (.inr (lt_of_lt_of_le (by decide) h.1.1))) fun _ => ?_
  refine Exec.returns_ite (fun h => quiet (returns_modify _ (index_lt h.1 (by decide)) _ _)
    (early (h.1.2.trans_lt (by decide)))
    fun _ => .inr (.inr (lt_of_lt_of_le (by decide) h.1.1))) fun _ => ?_
  refine Exec.returns_ite (fun h => quiet (returns_modify _ (index_lt h.1 (by decide)) _ _)
    (early (h.1.2.trans_lt (by decide)))
    fun _ => .inr (.inr (lt_of_lt_of_le (by decide) h.1.1))) fun _ => ?_
  refine Exec.returns_ite (fun h => ?_) fun _ => ?_
  · have hi : (offset - gicdIpriorityr0) / 4 < 255 := by
      simp only [gicdIpriorityr0, gicdIpriorityr254] at h ⊢
      omega
    have hg := early (h.2.trans_le (by decide))
    have ho : gicdIspendr31 < offset := lt_of_lt_of_le (by decide) h.1
    dsimp only
    refine Exec.returns_ite (fun _ => quiet (returns_modify _ hi _ _) hg fun _ => .inr (.inr ho))
      fun _ => ?_
    refine Exec.returns_ite (fun _ => quiet (returns_set _ hi _ _) hg fun _ => .inr (.inr ho))
      fun _ => ?_
    exact quiet (Exec.returns_ok _) hg fun _ => .inr (.inr ho)
  refine Exec.returns_ite (fun h => quiet (returns_set _ (index_lt h.1 (by decide)) _ _)
    (early (h.1.2.trans_lt (by decide)))
    fun _ => .inr (.inr (lt_of_lt_of_le (by decide) h.1.1))) fun _ => ?_
  refine Exec.returns_ite (fun h => ?_) fun hg => ?_
  · by_cases hi : (offset - gicdIgrpmodr0) / 4 < 32
    · refine quiet (returns_set _ hi _ _) (early ?_)
        fun _ => .inr (.inr (lt_of_lt_of_le (by decide) h.1.1))
      simp only [gicdIgrpmodr0] at hi
      omega
    · refine iff_of_false ?_ fun hs => hs.1 ⟨h.2, ?_, h.1.2⟩
      · simp [Bank.set_of_le (not_lt.mp hi)]
      · simp only [gicdIgrpmodr0] at hi
        omega
  have hne : ¬PastGroupModifiers offset w := by
    rintro ⟨hw, h1, h2⟩
    exact hg ⟨⟨le_trans (by decide) h1, h2⟩, hw⟩
  have hs : Safe d cpu (.write offset w value) :=
    safe_write_of_quiet hne (fun hw h => he ⟨h, hw⟩) fun hw h => hp ⟨h, hw⟩
  refine Exec.returns_ite (fun h => iff_of_true (returns_set _ ?_ _ _) hs)
    fun _ => iff_of_true (Exec.returns_ok _) hs
  have := h.1
  simp only [gicdIrouter0, gicdIrouter1019] at this ⊢
  omega

/-- An access returns exactly when it is safe. -/
theorem returns_iff (d : GicDistributorMmio) (cpu : Cpu) {a : DistributorAccess} (h : a.Valid) :
    Exec.Returns (a.exec d cpu) ↔ Safe d cpu a := by
  cases a with
  | read offset w =>
    exact (Exec.returns_map _ _).trans (read_returns_iff d offset w)
  | write offset w value =>
    exact (Exec.returns_map _ _).trans (write_returns_iff d cpu offset w value h.2.2)

end DistributorAccess

/-! ## Runs -/

/-- The distributor after a run of guest accesses, each with the CPU it is made on. -/
def runAccesses : GicDistributorMmio → List (Cpu × DistributorAccess) → Exec GicDistributorMmio
  | d, [] => .ok d
  | d, (cpu, a) :: run => do
    let d ← a.exec d cpu
    runAccesses d run

/-- Every access of the run is safe in the state it finds. -/
def RunSafe : GicDistributorMmio → List (Cpu × DistributorAccess) → Prop
  | _, [] => True
  | d, (cpu, a) :: run => a.Safe d cpu ∧ ∀ d', a.exec d cpu = .ok d' → RunSafe d' run

theorem runAccesses_returns_iff_of_valid :
    ∀ (run : List (Cpu × DistributorAccess)) (d : GicDistributorMmio),
      (∀ s ∈ run, s.2.Valid) → (Exec.Returns (runAccesses d run) ↔ RunSafe d run)
  | [], d, _ => iff_of_true (Exec.returns_ok d) trivial
  | (cpu, a) :: run, d, hv => by
    have hva : a.Valid := hv _ List.mem_cons_self
    have ih := fun d' => runAccesses_returns_iff_of_valid run d' fun s hs =>
      hv s (List.mem_cons_of_mem _ hs)
    simp only [runAccesses, RunSafe, Exec.returns_bind, ih]
    rw [← DistributorAccess.returns_iff d cpu hva]
    constructor
    · rintro ⟨d', hd, hr⟩
      refine ⟨⟨d', hd⟩, fun d'' hd' => ?_⟩
      cases hd.symm.trans hd'
      exact hr
    · rintro ⟨⟨d', hd⟩, hr⟩
      exact ⟨d', hd, hr d' hd⟩

/-- A run of guest accesses from `new` stops at no trap exactly when every access is safe in
the state it finds. -/
theorem runAccesses_returns_iff (run : List (Cpu × DistributorAccess))
    (hv : ∀ s ∈ run, s.2.Valid) :
    Exec.Returns (runAccesses .new run) ↔ RunSafe .new run :=
  runAccesses_returns_iff_of_valid run .new hv

/-- Enabling an interrupt that is not pending is safe. -/
theorem runAccesses_returns_iff_isenabler :
    Exec.Returns (runAccesses .new [(twoListRegisters, .write 0 32 2), (twoListRegisters,
      .write 0x104 32 1)]) ∧ RunSafe .new [(twoListRegisters, .write 0 32 2), (twoListRegisters,
      .write 0x104 32 1)] := by
  have h := runAccesses_returns_iff [(twoListRegisters, .write 0 32 2), (twoListRegisters,
    .write 0x104 32 1)] (by simp [DistributorAccess.Valid, GicDistributorMmio.mmioSize])
  have hr : Exec.Returns (runAccesses .new [(twoListRegisters, .write 0 32 2), (twoListRegisters,
    .write 0x104 32 1)]) := ⟨_, rfl⟩
  exact ⟨hr, h.mp hr⟩

/-- A guest that reads `GICD_IGRPMODR` at offset `0xD80` traps, as does one that makes INTID
1020 pending after enabling it, and one that routes a pending interrupt to a remote CPU with
`aff0` 16. -/
theorem runAccesses_traps :
    (∃ run : List (Cpu × DistributorAccess), (∀ s ∈ run, s.2.Valid) ∧
      ¬Exec.Returns (runAccesses .new run)) ∧
    runAccesses .new [(twoListRegisters, .read 0xD80 32)] = .error .outOfBounds ∧
    runAccesses .new [(twoListRegisters, .write 0 32 2), (twoListRegisters,
      .write 0x17C 32 0x10000000), (twoListRegisters, .write 0x27C 32 0x10000000)] =
        .error .outOfBounds ∧
    runAccesses .new [(twoListRegisters, .write 0 32 0x12), (twoListRegisters,
      .write 0x104 32 1), (twoListRegisters, .write 0x6200 64 16), (twoListRegisters,
        .write 0x204 32 1)] = .error .assertion := by
  have h : runAccesses .new [(twoListRegisters, .read 0xD80 32)] = .error .outOfBounds := rfl
  refine ⟨⟨[(twoListRegisters, .read 0xD80 32)], ?_, ?_⟩, h, rfl, rfl⟩
  · simp [DistributorAccess.Valid, GicDistributorMmio.mmioSize]
  · rw [h]
    exact Exec.not_returns_error _

end MiniVisor
