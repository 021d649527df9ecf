import MiniVisor.GicSafety

/-!
# Runs of the interrupt controller

`GicEvent` is everything that can happen to the controller of a VM and to the list registers of the
CPU the VM runs on : `trigger_interrupt` on that CPU or on another one, a guest write, the two
interrupt handlers of the hypervisor, and the guest's acknowledge and completion. `GicRun C s K` are
the states `s` of the runs whose events meet `C`; `K` holds the INTIDs that the guest has completed
and that have been neither triggered nor set by the guest since.

The rest of the module says what one event can do. `triggerInterrupt_cases` and `write_cases` take a call
apart, and `maintenanceFrom_eq` is the effect of a run of the maintenance handler on a list register and on
the bits of an interrupt.
-/

namespace MiniVisor

open Machine Vgic

namespace Gic

/-- The emulated pending bit of INTID `n`. -/
def pendingBit (gic : Gic) (n : ℕ) : Bool :=
  if 32 ≤ n then gic.distributor.pending.bit n else gic.redistributor.pending.getLsbD n

/-- The emulated active bit of INTID `n`. -/
def activeBit (gic : Gic) (n : ℕ) : Bool :=
  if 32 ≤ n then gic.distributor.active.bit n else gic.redistributor.active.getLsbD n

theorem pendingBit_spi {gic : Gic} {n : ℕ} (hn : 32 ≤ n) :
    gic.pendingBit n = gic.distributor.pending.bit n :=
  if_pos hn

theorem pendingBit_ppi {gic : Gic} {n : ℕ} (hn : ¬32 ≤ n) :
    gic.pendingBit n = gic.redistributor.pending.getLsbD n :=
  if_neg hn

theorem activeBit_spi {gic : Gic} {n : ℕ} (hn : 32 ≤ n) :
    gic.activeBit n = gic.distributor.active.bit n :=
  if_pos hn

theorem activeBit_ppi {gic : Gic} {n : ℕ} (hn : ¬32 ≤ n) :
    gic.activeBit n = gic.redistributor.active.getLsbD n :=
  if_neg hn

end Gic

/-- What can happen to the controller of a VM. The triggers with a CPU run on that one, and the
others on the CPU of the VM. -/
inductive GicEvent
  | distributorTrigger (intId : ℕ) (physicalIntId : Option (BitVec 32))
  | distributorTriggerOn (other : Cpu) (intId : ℕ) (physicalIntId : Option (BitVec 32))
  | redistributorTrigger (intId : ℕ) (physicalIntId : Option (BitVec 32))
  | redistributorTriggerOn (other : Cpu) (intId : ℕ) (physicalIntId : Option (BitVec 32))
  | distributorWrite (offset accessWidth : ℕ) (value : BitVec 64)
  | redistributorWrite (offset accessWidth : ℕ) (value : BitVec 64)
  | injectInterruptHandler
  | maintenanceInterruptHandler (eoiBits : BitVec 64)
  | acknowledge (i : ℕ)
  | endOfInterrupt (i : ℕ)

/-- The bit of INTID `n` is set in a write of `value` to the registers of one bit per INTID from `lo` to
`hi`. -/
def WrittenBit (lo hi offset accessWidth : ℕ) (value : BitVec 64) (n : ℕ) : Prop :=
  GicDistributorMmio.inWindow lo hi offset ∧ accessWidth = 32 ∧ (offset - lo) / 4 * 32 ≤ n ∧
    value.getLsbD (n - (offset - lo) / 4 * 32) = true

namespace GicEvent

/-- The effect of an event. -/
def exec : GicEvent → Gic × Cpu → Exec (Gic × Cpu)
  | distributorTrigger intId physicalIntId, (gic, cpu) => do
    let (distributor, cpu) ← gic.distributor.triggerInterrupt cpu intId physicalIntId
    pure ({ gic with distributor }, cpu)
  | distributorTriggerOn other intId physicalIntId, (gic, cpu) => do
    let (distributor, _) ← gic.distributor.triggerInterrupt other intId physicalIntId
    pure ({ gic with distributor }, cpu)
  | redistributorTrigger intId physicalIntId, (gic, cpu) => do
    let (redistributor, cpu) ← gic.redistributor.triggerInterrupt cpu intId physicalIntId
    pure ({ gic with redistributor }, cpu)
  | redistributorTriggerOn other intId physicalIntId, (gic, cpu) => do
    let (redistributor, _) ← gic.redistributor.triggerInterrupt other intId physicalIntId
    pure ({ gic with redistributor }, cpu)
  | distributorWrite offset accessWidth value, (gic, cpu) => do
    let (distributor, cpu) ← gic.distributor.write cpu offset accessWidth value
    pure ({ gic with distributor }, cpu)
  | redistributorWrite offset accessWidth value, (gic, cpu) => do
    let (redistributor, cpu) ← gic.redistributor.write cpu offset accessWidth value
    pure ({ gic with redistributor }, cpu)
  | injectInterruptHandler, (gic, cpu) => .ok (MiniVisor.injectInterruptHandler gic cpu)
  | maintenanceInterruptHandler eoiBits, (gic, cpu) =>
    MiniVisor.maintenanceInterruptHandler gic cpu eoiBits
  | acknowledge i, (gic, cpu) =>
    .ok (gic, { cpu with lr := Function.update cpu.lr i (Vgic.acknowledge (cpu.lr i)) })
  | endOfInterrupt i, (gic, cpu) =>
    .ok (gic, { cpu with lr := Function.update cpu.lr i (Vgic.endOfInterrupt (cpu.lr i)) })

/-- The event can happen : a written value fits its width, the handler reads what the processor
reports, and the guest acts on a register that is implemented. -/
def Possible (cpu : Cpu) : GicEvent → Prop
  | distributorWrite _ accessWidth value => value.toNat < 2 ^ accessWidth
  | redistributorWrite _ accessWidth value => value.toNat < 2 ^ accessWidth
  | maintenanceInterruptHandler eoiBits => IsEisr cpu.ichVtrEl2 cpu.lr eoiBits
  | acknowledge i => i < numberOfLrn cpu.ichVtrEl2
  | endOfInterrupt i => i < numberOfLrn cpu.ichVtrEl2
  | _ => True

/-- The INTIDs that an event triggers, or that the guest sets pending or active by it. Enabling an
interrupt triggers it if it is pending. -/
def renews (gic : Gic) : GicEvent → Set ℕ
  | distributorTrigger intId _ => {intId}
  | distributorTriggerOn _ intId _ => {intId}
  | redistributorTrigger intId _ => {intId}
  | redistributorTriggerOn _ intId _ => {intId}
  | distributorWrite offset w value => {n |
    (WrittenBit gicdIsenabler0 gicdIsenabler31 offset w value n ∧
      gic.distributor.pending.bit n = true) ∨
    WrittenBit gicdIspendr0 gicdIspendr31 offset w value n ∨
    WrittenBit gicdIsactiver0 gicdIsactiver31 offset w value n}
  | redistributorWrite offset w value => {n |
    (WrittenBit gicrIsenabler0 gicrIsenabler0 offset w value n ∧
      gic.redistributor.pending.getLsbD n = true) ∨
    WrittenBit gicrIspendr0 gicrIspendr0 offset w value n ∨
    WrittenBit gicrIsactiver0 gicrIsactiver0 offset w value n}
  | _ => ∅

/-- The INTID that the guest completes by an event. -/
def completes (cpu : Cpu) : GicEvent → Set ℕ
  | endOfInterrupt i =>
    {n | cpu.lr i &&& ichLrnEl2StatusActive ≠ 0#64 ∧ n = (vIntId (cpu.lr i)).toNat}
  | _ => ∅

end GicEvent

/-- The states of the runs in which every event meets `C`, from inactive registers and empty queues,
with the INTIDs that are completed and neither triggered nor set since. -/
inductive GicRun (C : GicEvent → Gic × Cpu → Prop) : Gic × Cpu → Set ℕ → Prop
  | start (gic : Gic) (cpu : Cpu) (hl : ∀ i, isInactive (cpu.lr i) = true)
      (hd : gic.distributor.toInjectInterrupt = [])
      (hr : gic.redistributor.toInjectInterrupt = []) : GicRun C (gic, cpu) ∅
  | step {s s' : Gic × Cpu} {K : Set ℕ} (e : GicEvent) (hr : GicRun C s K) (hp : e.Possible s.2)
      (hc : C e s) (he : e.exec s = .ok s') : GicRun C s' (K \ e.renews s.1 ∪ e.completes s.2)

/-! ## Triggering an interrupt -/

namespace GicDistributorMmio

/-- An interrupt that is triggered is handed on. -/
def Delivers (d : GicDistributorMmio) (n : ℕ) : Prop :=
  d.ctlr &&& gicdCtlrEnableGrp1ns ≠ 0#32 ∧ d.enable.bit n = true ∧ d.groupModifier.bit n = false ∧
    d.ctlr &&& gicdCtlrAreS ≠ 0#32

variable {d d' : GicDistributorMmio} {cpu cpu' : Cpu} {n : ℕ} {p : Option (BitVec 32)}

/-- What a call of `trigger_interrupt` has done. -/
theorem triggerInterrupt_cases (h : d.triggerInterrupt cpu n p = .ok (d', cpu')) :
    (d.ctlr &&& gicdCtlrEnableGrp1ns = 0#32 ∧ d' = d ∧ cpu' = cpu) ∨
    (n < 1024 ∧ ¬d.Delivers n ∧ d' = d.setPending n ∧ cpu' = cpu) ∨
    (n < 1020 ∧ d.Delivers n ∧ sameAffinity (d.router.reg n) cpu.mpidrEl1 ∧ d' = d.setPending n ∧
      cpu' = { cpu with lr := addVirtualInterrupt cpu.ichVtrEl2 cpu.lr (d.listEntry n p) }) ∨
    (n < 1020 ∧ d.Delivers n ∧ ¬sameAffinity (d.router.reg n) cpu.mpidrEl1 ∧
      d' = { d.setPending n with
        toInjectInterrupt := d.toInjectInterrupt ++ [d.listEntry n p] } ∧
      cpu' = { cpu with iccSgi1rEl1 := iccSgi1r (d.router.reg n) :: cpu.iccSgi1rEl1 }) := by
  by_cases hn : n < 1024
  · rw [triggerInterrupt_eq hn] at h
    split_ifs at h with h0 h1 h2 h3 h4 h5 <;> cases h
    · exact .inl ⟨h0, rfl, rfl⟩
    · refine .inr (.inl ⟨hn, fun hd => ?_, rfl, rfl⟩)
      rcases h1 with h1 | h1
      · exact absurd (h1.symm.trans hd.2.1) (by decide)
      · exact absurd (h1.symm.trans hd.2.2.1) (by decide)
    · exact .inr (.inl ⟨hn, fun hd => hd.2.2.2 h3, rfl, rfl⟩)
    all_goals
      have hd : d.Delivers n := by
        simp only [not_or, Bool.not_eq_false, Bool.not_eq_true] at h1
        exact ⟨h0, h1.1, h1.2, h3⟩
    · exact .inr (.inr (.inl ⟨not_le.mp h2, hd, h4, rfl, rfl⟩))
    · exact .inr (.inr (.inr ⟨not_le.mp h2, hd, h4, rfl, rfl⟩))
  · have hout : ¬n / 32 < 32 := by omega
    simp only [triggerInterrupt, changePendingStatus, changeBit, Bank.modify,
      Bank.get_of_le (not_lt.mp hout), Exec.error_bind] at h
    split_ifs at h with h0
    · cases h
      exact .inl ⟨h0, rfl, rfl⟩

end GicDistributorMmio

namespace GicRedistributorMmio

variable {r r' : GicRedistributorMmio} {cpu cpu' : Cpu} {n : ℕ} {p : Option (BitVec 32)}

/-- `r` with `n` pending. -/
def setPending (r : GicRedistributorMmio) (n : ℕ) : GicRedistributorMmio :=
  { r with pending := r.pending ||| (1#32 <<< n) }

/-- The list register entry that delivers `n`. -/
def listEntry (r : GicRedistributorMmio) (n : ℕ) (p : Option (BitVec 32)) : BitVec 64 :=
  createListRegisterEntry (BitVec.ofNat 32 n) ((r.group >>> n) &&& 1#32)
    ((r.priority.reg (n / 4) >>> (n % 4 * 8)) &&& 0xFF#32) p

/-- An interrupt that is triggered is handed on. -/
def Delivers (r : GicRedistributorMmio) (n : ℕ) : Prop :=
  r.waker &&& gicrWakerChildrenAsleep = 0#32 ∧ r.enable.getLsbD n = true ∧
    r.groupModifier.getLsbD n = false

theorem field_eq (x : BitVec 32) (hn : n < 32) : field x n = .ok ((x >>> n) &&& 1#32) :=
  if_pos hn

theorem getEnable_eq (hn : n < 32) : r.getEnable n = .ok (r.enable.getLsbD n) := by
  simp only [getEnable, field_eq _ hn, Exec.ok_bind, Exec.pure_eq_ok]
  exact congrArg _ ((and_one_ne_zero _).trans (by simp))

theorem getPending_eq (hn : n < 32) : r.getPending n = .ok (r.pending.getLsbD n) := by
  simp only [getPending, field_eq _ hn, Exec.ok_bind, Exec.pure_eq_ok]
  exact congrArg _ ((and_one_ne_zero _).trans (by simp))

/-- Everything `triggerInterrupt` can do for an interrupt the registers know. -/
theorem triggerInterrupt_eq (hn : n < 32) (p : Option (BitVec 32)) :
    r.triggerInterrupt cpu n p =
      if r.waker &&& gicrWakerChildrenAsleep ≠ 0#32 then .ok (r, cpu)
      else if r.enable.getLsbD n = false ∨ r.groupModifier.getLsbD n = true then .ok (r.setPending n, cpu)
      else if r.affinity = mpidrToAffinity cpu.mpidrEl1 then
        .ok (r.setPending n,
          { cpu with lr := addVirtualInterrupt cpu.ichVtrEl2 cpu.lr (r.listEntry n p) })
      else if aff0 r.affinity < 16#64 then
        .ok ({ r.setPending n with toInjectInterrupt := r.toInjectInterrupt ++ [r.listEntry n p] },
          { cpu with iccSgi1rEl1 := iccSgi1r r.affinity :: cpu.iccSgi1rEl1 })
      else .error .assertion := by
  unfold triggerInterrupt
  have hpend : r.changePendingStatus n true = .ok (r.setPending n) := by
    simp [changePendingStatus, changeBit, hn, setPending]
  have he : (r.setPending n).getEnable n = .ok (r.enable.getLsbD n) := getEnable_eq hn
  have hm : (r.setPending n).getGroupModifier n = .ok ((r.groupModifier >>> n) &&& 1#32) :=
    field_eq _ hn
  have hm1 : (r.groupModifier >>> n) &&& 1#32 = 1#32 ↔ r.groupModifier.getLsbD n = true := by
    rw [and_one_eq_one]
    simp
  have hg : (r.setPending n).getGroup n = .ok ((r.group >>> n) &&& 1#32) := field_eq _ hn
  have hp : (r.setPending n).getPriority n =
      .ok ((r.priority.reg (n / 4) >>> (n % 4 * 8)) &&& 0xFF#32) := by
    simp [getPriority, GicDistributorMmio.field, Bank.get_of_lt (show n / 4 < 8 by omega), setPending]
  have haff : (r.setPending n).affinity = r.affinity := rfl
  have hqueue : (r.setPending n).toInjectInterrupt = r.toInjectInterrupt := rfl
  by_cases h0 : r.waker &&& gicrWakerChildrenAsleep ≠ 0#32
  · rw [if_pos h0, if_pos h0]
    rfl
  rw [if_neg h0, if_neg h0]
  simp only [hpend, he, hm, hg, hp, Exec.ok_bind, Exec.pure_eq_ok]
  by_cases h1 : r.enable.getLsbD n = true
  · by_cases h2 : r.groupModifier.getLsbD n = true
    · simp [h1, h2, hm1.mpr h2]
    · by_cases h3 : r.affinity = mpidrToAffinity cpu.mpidrEl1
      · simp [h1, h2, hm1, haff, h3, listEntry]
      · by_cases h4 : aff0 r.affinity < 16#64
        · simp [h1, h2, hm1, haff, hqueue, h3, h4, listEntry, Machine.assert]
        · simp [h1, h2, hm1, haff, h3, h4, Machine.assert]
  · simp [h1]

/-- What a call of `trigger_interrupt` has done. -/
theorem triggerInterrupt_cases (h : r.triggerInterrupt cpu n p = .ok (r', cpu')) :
    (r.waker &&& gicrWakerChildrenAsleep ≠ 0#32 ∧ r' = r ∧ cpu' = cpu) ∨
    (n < 32 ∧ ¬r.Delivers n ∧ r' = r.setPending n ∧ cpu' = cpu) ∨
    (n < 32 ∧ r.Delivers n ∧ r.affinity = mpidrToAffinity cpu.mpidrEl1 ∧ r' = r.setPending n ∧
      cpu' = { cpu with lr := addVirtualInterrupt cpu.ichVtrEl2 cpu.lr (r.listEntry n p) }) ∨
    (n < 32 ∧ r.Delivers n ∧ r.affinity ≠ mpidrToAffinity cpu.mpidrEl1 ∧
      r' = { r.setPending n with
        toInjectInterrupt := r.toInjectInterrupt ++ [r.listEntry n p] } ∧
      cpu' = { cpu with iccSgi1rEl1 := iccSgi1r r.affinity :: cpu.iccSgi1rEl1 }) := by
  by_cases hn : n < 32
  · rw [triggerInterrupt_eq hn] at h
    split_ifs at h with h0 h1 h2 h3 <;> cases h
    · exact .inl ⟨h0, rfl, rfl⟩
    · refine .inr (.inl ⟨hn, fun hd => ?_, rfl, rfl⟩)
      rcases h1 with h1 | h1
      · exact absurd (h1.symm.trans hd.2.1) (by decide)
      · exact absurd (h1.symm.trans hd.2.2) (by decide)
    all_goals
      have hd : r.Delivers n := by
        simp only [not_or, Bool.not_eq_false, Bool.not_eq_true] at h1
        exact ⟨not_not.mp h0, h1.1, h1.2⟩
    · exact .inr (.inr (.inl ⟨hn, hd, h2, rfl, rfl⟩))
    · exact .inr (.inr (.inr ⟨hn, hd, h2, rfl, rfl⟩))
  · unfold triggerInterrupt at h
    simp only [changePendingStatus, changeBit, if_neg hn, Exec.error_bind] at h
    split_ifs at h with h0
    cases h
    exact .inl ⟨h0, rfl, rfl⟩

end GicRedistributorMmio

/-! ## Guest writes -/

/-- What a guest write to the distributor does. -/
inductive DistributorWrite (d : GicDistributorMmio) (cpu : Cpu) (offset w : ℕ) (value : BitVec 64) :
    GicDistributorMmio → Cpu → Prop
  | ctlr (ho : offset = gicdCtlr) (hw : w = 32) :
      DistributorWrite d cpu offset w value { d with ctlr := value.setWidth 32 } cpu
  | settings (group : Bank 32 32) (priority : Bank 255 32) (configuration : Bank 64 32)
      (router : Bank 1020 64) : DistributorWrite d cpu offset w value
        { d with group, priority, configuration, router } cpu
  | groupModifier (i : ℕ) (hi : i < 32) (hw : w = 32)
      (ho : GicDistributorMmio.inWindow gicdIgrpmodr0 gicdIgrpmodr31 offset)
      (ho' : i = (offset - gicdIgrpmodr0) / 4) : DistributorWrite d cpu offset w value
      { d with groupModifier := d.groupModifier.update i (value.setWidth 32) } cpu
  | isenabler {d' : GicDistributorMmio} {cpu' : Cpu} (i : ℕ) (hi : i < 32) (hw : w = 32)
      (ho : GicDistributorMmio.inWindow gicdIsenabler0 gicdIsenabler31 offset)
      (ho' : i = (offset - gicdIsenabler0) / 4)
      (hs : GicDistributorMmio.scan
        { d with enable := d.enable.update i (d.enable.reg i ||| value.setWidth 32) }
        GicDistributorMmio.getPending cpu (i * 32) value = .ok (d', cpu')) :
      DistributorWrite d cpu offset w value d' cpu'
  | icenabler (i : ℕ) (hi : i < 32) : DistributorWrite d cpu offset w value
      { d with enable := d.enable.update i (d.enable.reg i &&& ~~~(value.setWidth 32)) } cpu
  | ispendr {d' : GicDistributorMmio} {cpu' : Cpu} (i : ℕ) (hi : i < 32) (hw : w = 32)
      (ho : GicDistributorMmio.inWindow gicdIspendr0 gicdIspendr31 offset)
      (ho' : i = (offset - gicdIspendr0) / 4)
      (hs : GicDistributorMmio.scan
        { d with pending := d.pending.update i (d.pending.reg i ||| value.setWidth 32) }
        GicDistributorMmio.getEnable cpu (i * 32) value = .ok (d', cpu')) :
      DistributorWrite d cpu offset w value d' cpu'
  | icpendr (i : ℕ) (hi : i < 32) : DistributorWrite d cpu offset w value
      { d with pending := d.pending.update i (d.pending.reg i &&& ~~~(value.setWidth 32)) } cpu
  | isactiver (i : ℕ) (hi : i < 32) (hw : w = 32)
      (ho : GicDistributorMmio.inWindow gicdIsactiver0 gicdIsactiver31 offset)
      (ho' : i = (offset - gicdIsactiver0) / 4) : DistributorWrite d cpu offset w value
      { d with active := d.active.update i (d.active.reg i ||| value.setWidth 32) } cpu
  | icactiver (i : ℕ) (hi : i < 32) : DistributorWrite d cpu offset w value
      { d with active := d.active.update i (d.active.reg i &&& ~~~(value.setWidth 32)) } cpu

theorem Bank.set_eq_ok {n w : ℕ} {b b' : Bank n w} {i : ℕ} {v : BitVec w} :
    b.set i v = .ok b' ↔ i < n ∧ b' = b.update i v := by
  unfold Bank.set
  split_ifs with h
  · simp only [Except.ok.injEq, h, true_and]
    exact eq_comm
  · simp [h]

theorem Bank.modify_eq_ok {n w : ℕ} {b b' : Bank n w} {i : ℕ} {f : BitVec w → BitVec w} :
    b.modify i f = .ok b' ↔ i < n ∧ b' = b.update i (f (b.reg i)) := by
  by_cases h : i < n
  · rw [Bank.modify_of_lt h]
    simp only [Except.ok.injEq, h, true_and]
    exact eq_comm
  · simp [Bank.modify, Bank.get_of_le (not_lt.mp h), h]

theorem GicDistributorMmio.write_cases {d d' : GicDistributorMmio} {cpu cpu' : Cpu} {offset w : ℕ}
    {value : BitVec 64} (h : d.write cpu offset w value = .ok (d', cpu')) :
    DistributorWrite d cpu offset w value d' cpu' := by
  unfold GicDistributorMmio.write at h
  refine Exec.ok_of_ite h (fun ho h => ?_) fun _ h => ?_
  · cases h
    exact .ctlr ho.1 ho.2
  refine Exec.ok_of_ite h (fun _ h => ?_) fun _ h => ?_
  · obtain ⟨b, -, h⟩ := Exec.bind_eq_ok.mp h
    cases h
    exact .settings _ _ _ _
  refine Exec.ok_of_ite h (fun ho h => ?_) fun _ h => ?_
  · obtain ⟨b, hb, h⟩ := Exec.bind_eq_ok.mp h
    obtain ⟨hi, rfl⟩ := Bank.modify_eq_ok.mp hb
    exact .isenabler _ hi ho.2 ho.1 rfl h
  refine Exec.ok_of_ite h (fun _ h => ?_) fun _ h => ?_
  · obtain ⟨b, hb, h⟩ := Exec.bind_eq_ok.mp h
    obtain ⟨hi, rfl⟩ := Bank.modify_eq_ok.mp hb
    cases h
    exact .icenabler _ hi
  refine Exec.ok_of_ite h (fun ho h => ?_) fun _ h => ?_
  · obtain ⟨b, hb, h⟩ := Exec.bind_eq_ok.mp h
    obtain ⟨hi, rfl⟩ := Bank.modify_eq_ok.mp hb
    rw [Nat.mul_assoc _ 4 8] at h
    exact .ispendr _ hi ho.2 ho.1 rfl h
  refine Exec.ok_of_ite h (fun _ h => ?_) fun _ h => ?_
  · obtain ⟨b, hb, h⟩ := Exec.bind_eq_ok.mp h
    obtain ⟨hi, rfl⟩ := Bank.modify_eq_ok.mp hb
    cases h
    exact .icpendr _ hi
  refine Exec.ok_of_ite h (fun ho h => ?_) fun _ h => ?_
  · obtain ⟨b, hb, h⟩ := Exec.bind_eq_ok.mp h
    obtain ⟨hi, rfl⟩ := Bank.modify_eq_ok.mp hb
    cases h
    exact .isactiver _ hi ho.2 ho.1 rfl
  refine Exec.ok_of_ite h (fun _ h => ?_) fun _ h => ?_
  · obtain ⟨b, hb, h⟩ := Exec.bind_eq_ok.mp h
    obtain ⟨hi, rfl⟩ := Bank.modify_eq_ok.mp hb
    cases h
    exact .icactiver _ hi
  refine Exec.ok_of_ite h (fun _ h => ?_) fun _ h => ?_
  · refine Exec.ok_of_ite h (fun _ h => ?_) fun _ h => ?_
    · obtain ⟨b, -, h⟩ := Exec.bind_eq_ok.mp h
      cases h
      exact .settings _ _ _ _
    refine Exec.ok_of_ite h (fun _ h => ?_) fun _ h => ?_
    · obtain ⟨b, -, h⟩ := Exec.bind_eq_ok.mp h
      cases h
      exact .settings _ _ _ _
    · cases h
      exact .settings _ _ _ _
  refine Exec.ok_of_ite h (fun _ h => ?_) fun _ h => ?_
  · obtain ⟨b, -, h⟩ := Exec.bind_eq_ok.mp h
    cases h
    exact .settings _ _ _ _
  refine Exec.ok_of_ite h (fun ho h => ?_) fun _ h => ?_
  · obtain ⟨b, hb, h⟩ := Exec.bind_eq_ok.mp h
    obtain ⟨hi, rfl⟩ := Bank.set_eq_ok.mp hb
    cases h
    exact .groupModifier _ hi ho.2 ho.1 rfl
  refine Exec.ok_of_ite h (fun _ h => ?_) fun _ h => ?_
  · obtain ⟨b, -, h⟩ := Exec.bind_eq_ok.mp h
    cases h
    exact .settings _ _ _ _
  · cases h
    exact .settings _ _ _ _

/-- What a guest write to the redistributor does. -/
inductive RedistributorWrite (r : GicRedistributorMmio) (cpu : Cpu) (offset w : ℕ)
    (value : BitVec 64) : GicRedistributorMmio → Cpu → Prop
  | settings (ctlr waker group enable : BitVec 32) (priority : Bank 8 32)
      (configuration : Bank 2 32) (groupModifier : BitVec 32) :
      RedistributorWrite r cpu offset w value
        { r with ctlr, waker, group, enable, priority, configuration, groupModifier } cpu
  | isenabler {r' : GicRedistributorMmio} {cpu' : Cpu} (ho : offset = gicrIsenabler0) (hw : w = 32)
      (hs : GicRedistributorMmio.scan { r with enable := r.enable ||| value.setWidth 32 }
        GicRedistributorMmio.getPending cpu value = .ok (r', cpu')) :
      RedistributorWrite r cpu offset w value r' cpu'
  | ispendr {r' : GicRedistributorMmio} {cpu' : Cpu} (ho : offset = gicrIspendr0) (hw : w = 32)
      (hs : GicRedistributorMmio.scan { r with pending := r.pending ||| value.setWidth 32 }
        GicRedistributorMmio.getEnable cpu value = .ok (r', cpu')) :
      RedistributorWrite r cpu offset w value r' cpu'
  | icpendr (ho : offset = gicrIcpendr0) : RedistributorWrite r cpu offset w value
      { r with pending := r.pending &&& ~~~(value.setWidth 32) } cpu
  | isactiver (ho : offset = gicrIsactiver0) (hw : w = 32) :
      RedistributorWrite r cpu offset w value { r with active := r.active ||| value.setWidth 32 } cpu
  | icactiver (ho : offset = gicrIcactiver0) : RedistributorWrite r cpu offset w value
      { r with active := r.active &&& ~~~(value.setWidth 32) } cpu

theorem GicRedistributorMmio.writeRegister_cases {r r' : GicRedistributorMmio} {cpu cpu' : Cpu}
    {offset w : ℕ} {value : BitVec 64} (h : r.writeRegister cpu offset w value = .ok (r', cpu')) :
    RedistributorWrite r cpu offset w value r' cpu' := by
  unfold GicRedistributorMmio.writeRegister at h
  refine Exec.ok_of_ite h (fun _ h => ?_) fun _ h => ?_
  · refine Exec.ok_of_ite h (fun _ h => ?_) fun _ h => ?_
    · cases h
      exact .settings _ _ _ _ _ _ _
    · cases h
      exact .settings _ _ _ _ _ _ _
  refine Exec.ok_of_ite h (fun _ h => ?_) fun _ h => ?_
  · cases h
    exact .settings _ _ _ _ _ _ _
  refine Exec.ok_of_ite h (fun ho h => .isenabler ho.1 ho.2 h) fun _ h => ?_
  refine Exec.ok_of_ite h (fun _ h => ?_) fun _ h => ?_
  · cases h
    exact .settings _ _ _ _ _ _ _
  refine Exec.ok_of_ite h (fun ho h => .ispendr ho.1 ho.2 h) fun _ h => ?_
  refine Exec.ok_of_ite h (fun ho h => ?_) fun _ h => ?_
  · cases h
    exact .icpendr ho.1
  refine Exec.ok_of_ite h (fun ho h => ?_) fun _ h => ?_
  · cases h
    exact .isactiver ho.1 ho.2
  refine Exec.ok_of_ite h (fun ho h => ?_) fun _ h => ?_
  · cases h
    exact .icactiver ho.1
  refine Exec.ok_of_ite h (fun _ h => ?_) fun _ h => ?_
  · refine Exec.ok_of_ite h (fun _ h => ?_) fun _ h => ?_
    · obtain ⟨b, -, h⟩ := Exec.bind_eq_ok.mp h
      cases h
      exact .settings _ _ _ _ _ _ _
    refine Exec.ok_of_ite h (fun _ h => ?_) fun _ h => ?_
    · obtain ⟨b, -, h⟩ := Exec.bind_eq_ok.mp h
      cases h
      exact .settings _ _ _ _ _ _ _
    · cases h
      exact .settings _ _ _ _ _ _ _
  refine Exec.ok_of_ite h (fun _ h => ?_) fun _ h => ?_
  · obtain ⟨b, -, h⟩ := Exec.bind_eq_ok.mp h
    cases h
    exact .settings _ _ _ _ _ _ _
  refine Exec.ok_of_ite h (fun _ h => ?_) fun _ h => ?_
  · cases h
    exact .settings _ _ _ _ _ _ _
  · cases h
    exact .settings _ _ _ _ _ _ _

theorem GicRedistributorMmio.write_cases {r r' : GicRedistributorMmio} {cpu cpu' : Cpu}
    {offset w : ℕ} {value : BitVec 64} (h : r.write cpu offset w value = .ok (r', cpu')) :
    RedistributorWrite r cpu offset w value r' cpu' := by
  refine Exec.ok_of_ite h (fun hctlr h => ?_) fun _ h => writeRegister_cases h
  -- `GICR_CTLR` is none of the other registers.
  have hoff : ∀ k, k ≠ gicrCtlr → offset ≠ k := fun k hk ho => hk (ho.symm.trans hctlr.1)
  cases writeRegister_cases h with
  | settings => exact .settings _ _ _ _ _ _ _
  | isenabler ho => exact absurd ho (hoff _ (by decide))
  | ispendr ho => exact absurd ho (hoff _ (by decide))
  | icpendr ho => exact absurd ho (hoff _ (by decide))
  | isactiver ho => exact absurd ho (hoff _ (by decide))
  | icactiver ho => exact absurd ho (hoff _ (by decide))

/-! ## Maintenance -/

/-- A register with one bit cleared. -/
theorem getLsbD_clear (x : BitVec 32) {n : ℕ} (hn : n < 32) (i : ℕ) :
    (x &&& ~~~(1#32 <<< n)).getLsbD i = (x.getLsbD i && decide (i ≠ n)) := by
  rw [BitVec.getLsbD_and, BitVec.getLsbD_not, getLsbD_one_shiftLeft hn]
  by_cases hi : i < 32
  · simp [hi]
  · simp [BitVec.getLsbD_of_ge x i (not_lt.mp hi)]

/-- Clearing the bit of `n` in an array of one bit per interrupt. -/
theorem changeBit_false_bit {b b' : Bank 32 32} {n : ℕ}
    (h : GicDistributorMmio.changeBit b n false = .ok b') (m : ℕ) :
    b'.bit m = (b.bit m && decide (m ≠ n)) := by
  obtain ⟨-, rfl⟩ := Bank.modify_eq_ok.mp h
  have hbit := getLsbD_clear (b.reg (n / 32)) (Nat.mod_lt n (show 0 < 32 by decide))
  by_cases hm : m = n
  · subst hm
    simp [Bank.bit, hbit]
  · rw [if_neg (by decide), GicDistributorMmio.bit_update_of_ne _ hm]
    · simp [hm]
    · intro i hi
      simp [hbit, hi]

theorem GicRedistributorMmio.changeBit_false_getLsbD {x x' : BitVec 32} {n : ℕ}
    (h : GicRedistributorMmio.changeBit x n false = .ok x') (m : ℕ) :
    x'.getLsbD m = (x.getLsbD m && decide (m ≠ n)) := by
  unfold GicRedistributorMmio.changeBit at h
  refine Exec.ok_of_ite h (fun hn h => ?_) fun _ h => by cases h
  cases h
  exact getLsbD_clear x hn m

/-- Completing the interrupt of a list register clears its bits, and nothing else. -/
theorem completeInterrupt_eq {gic gic' : Gic} {lr lr' : ListRegisters} {i : ℕ}
    (h : completeInterrupt gic lr i = .ok (gic', lr')) :
    (∀ m, gic'.pendingBit m = (gic.pendingBit m && decide (m ≠ (vIntId (lr i)).toNat))) ∧
    (∀ m, gic'.activeBit m = (gic.activeBit m && decide (m ≠ (vIntId (lr i)).toNat))) ∧
    (∃ pending active, gic'.distributor = { gic.distributor with pending, active }) ∧
    ∃ pending active, gic'.redistributor = { gic.redistributor with pending, active } := by
  simp only [completeInterrupt] at h
  split_ifs at h with hn
  · obtain ⟨d₁, h₁, h⟩ := Exec.bind_eq_ok.mp h
    obtain ⟨b₁, hb₁, h₁⟩ := Exec.bind_eq_ok.mp h₁
    obtain ⟨d₂, h₂, h⟩ := Exec.bind_eq_ok.mp h
    obtain ⟨b₂, hb₂, h₂⟩ := Exec.bind_eq_ok.mp h₂
    cases h₁
    cases h₂
    cases h
    refine ⟨fun m => ?_, fun m => ?_, ⟨_, _, rfl⟩, ⟨_, _, rfl⟩⟩
    · by_cases hm : 32 ≤ m
      · rw [Gic.pendingBit_spi hm, Gic.pendingBit_spi hm]
        exact changeBit_false_bit hb₁ m
      · rw [Gic.pendingBit_ppi hm, Gic.pendingBit_ppi hm, decide_eq_true (by omega), Bool.and_true]
    · by_cases hm : 32 ≤ m
      · rw [Gic.activeBit_spi hm, Gic.activeBit_spi hm]
        exact changeBit_false_bit hb₂ m
      · rw [Gic.activeBit_ppi hm, Gic.activeBit_ppi hm, decide_eq_true (by omega), Bool.and_true]
  · obtain ⟨r₁, h₁, h⟩ := Exec.bind_eq_ok.mp h
    obtain ⟨b₁, hb₁, h₁⟩ := Exec.bind_eq_ok.mp h₁
    obtain ⟨r₂, h₂, h⟩ := Exec.bind_eq_ok.mp h
    obtain ⟨b₂, hb₂, h₂⟩ := Exec.bind_eq_ok.mp h₂
    cases h₁
    cases h₂
    cases h
    refine ⟨fun m => ?_, fun m => ?_, ⟨_, _, rfl⟩, ⟨_, _, rfl⟩⟩
    · by_cases hm : 32 ≤ m
      · rw [Gic.pendingBit_spi hm, Gic.pendingBit_spi hm, decide_eq_true (by omega), Bool.and_true]
      · rw [Gic.pendingBit_ppi hm, Gic.pendingBit_ppi hm]
        exact GicRedistributorMmio.changeBit_false_getLsbD hb₁ m
    · by_cases hm : 32 ≤ m
      · rw [Gic.activeBit_spi hm, Gic.activeBit_spi hm, decide_eq_true (by omega), Bool.and_true]
      · rw [Gic.activeBit_ppi hm, Gic.activeBit_ppi hm]
        exact GicRedistributorMmio.changeBit_false_getLsbD hb₂ m

/-- The registers that satisfy `P` are completed : they are cleared, and so are the bits of their
INTIDs. -/
structure Maintained (P : ℕ → Prop) (s s' : Gic × ListRegisters) : Prop where
  cleared : ∀ j, P j → s'.2 j = 0#64
  kept : ∀ j, ¬P j → s'.2 j = s.2 j
  pendingBit : ∀ m, s'.1.pendingBit m = true ↔
    s.1.pendingBit m = true ∧ ∀ j, P j → (vIntId (s.2 j)).toNat ≠ m
  activeBit : ∀ m, s'.1.activeBit m = true ↔
    s.1.activeBit m = true ∧ ∀ j, P j → (vIntId (s.2 j)).toNat ≠ m
  distributor : ∃ pending active, s'.1.distributor = { s.1.distributor with pending, active }
  redistributor : ∃ pending active, s'.1.redistributor = { s.1.redistributor with pending, active }

namespace Maintained

variable {P Q : ℕ → Prop} {s s' s'' : Gic × ListRegisters}

theorem refl (hP : ∀ j, ¬P j) : Maintained P s s where
  cleared j hj := absurd hj (hP j)
  kept _ _ := rfl
  pendingBit _ := ⟨fun h => ⟨h, fun j hj => absurd hj (hP j)⟩, And.left⟩
  activeBit _ := ⟨fun h => ⟨h, fun j hj => absurd hj (hP j)⟩, And.left⟩
  distributor := ⟨_, _, rfl⟩
  redistributor := ⟨_, _, rfl⟩

/-- Registers that are completed one after another. -/
theorem trans (h : Maintained P s s') (h' : Maintained Q s' s'') (hne : ∀ j, Q j → ¬P j) :
    Maintained (fun j => P j ∨ Q j) s s'' := by
  have hQ : ∀ m, (∀ j, Q j → (vIntId (s'.2 j)).toNat ≠ m) ↔
      ∀ j, Q j → (vIntId (s.2 j)).toNat ≠ m := by
    intro m
    refine forall_congr' fun j => forall_congr' fun hj => ?_
    rw [h.kept j (hne j hj)]
  refine ⟨fun j hj => ?_, fun j hj => ?_, fun m => ?_, fun m => ?_, ?_, ?_⟩
  · by_cases hq : Q j
    · exact h'.cleared j hq
    · rw [h'.kept j hq]
      exact h.cleared j (hj.resolve_right hq)
  · rw [not_or] at hj
    rw [h'.kept j hj.2, h.kept j hj.1]
  · rw [h'.pendingBit, h.pendingBit, hQ]
    exact ⟨fun ⟨⟨h0, hp⟩, hq⟩ => ⟨h0, fun j => Or.rec (hp j) (hq j)⟩,
      fun ⟨h0, hpq⟩ => ⟨⟨h0, fun j hj => hpq j (.inl hj)⟩, fun j hj => hpq j (.inr hj)⟩⟩
  · rw [h'.activeBit, h.activeBit, hQ]
    exact ⟨fun ⟨⟨h0, hp⟩, hq⟩ => ⟨h0, fun j => Or.rec (hp j) (hq j)⟩,
      fun ⟨h0, hpq⟩ => ⟨⟨h0, fun j hj => hpq j (.inl hj)⟩, fun j hj => hpq j (.inr hj)⟩⟩
  · obtain ⟨p, a, hd⟩ := h.distributor
    obtain ⟨p', a', hd'⟩ := h'.distributor
    exact ⟨p', a', by rw [hd', hd]⟩
  · obtain ⟨p, a, hr⟩ := h.redistributor
    obtain ⟨p', a', hr'⟩ := h'.redistributor
    exact ⟨p', a', by rw [hr', hr]⟩

theorem congr (h : Maintained P s s') (hPQ : ∀ j, P j ↔ Q j) : Maintained Q s s' := by
  rwa [show P = Q from funext fun j => propext (hPQ j)] at h

end Maintained

theorem completeInterrupt_maintained {gic gic' : Gic} {lr lr' : ListRegisters} {i : ℕ}
    (h : completeInterrupt gic lr i = .ok (gic', lr')) :
    Maintained (· = i) (gic, lr) (gic', lr') := by
  obtain ⟨hp, ha, hd, hr⟩ := completeInterrupt_eq h
  have hlr := completeInterrupt_lr h
  refine ⟨fun j hj => ?_, fun j hj => ?_, fun m => ?_, fun m => ?_, hd, hr⟩
  · simp only [hlr, hj, Function.update_self]
  · simp only [hlr, Function.update_of_ne hj]
  · rw [hp, Bool.and_eq_true, decide_eq_true_eq, forall_eq]
    exact and_congr_right fun _ => ne_comm
  · rw [ha, Bool.and_eq_true, decide_eq_true_eq, forall_eq]
    exact and_congr_right fun _ => ne_comm

/-- A run of the loop of the maintenance handler. -/
theorem maintenanceFrom_maintained :
    ∀ (n i : ℕ) (eoiBits : BitVec 64) (s s' : Gic × ListRegisters),
      maintenanceFrom eoiBits n i s = .ok s' →
      Maintained (fun j => i ≤ j ∧ j < i + n ∧ eoiBits.getLsbD (j - i) = true) s s'
  | 0, i, _, s, s', h => by
    cases h
    exact Maintained.refl fun j hj => by omega
  | n + 1, i, eoiBits, s, s', h => by
    obtain ⟨s₁, h₁, h₂⟩ := Exec.bind_eq_ok.mp h
    have hrest := maintenanceFrom_maintained n (i + 1) _ s₁ s' h₂
    have hfirst : Maintained (fun j => j = i ∧ eoiBits.getLsbD 0 = true) s s₁ := by
      unfold maintainRegister at h₁
      refine Exec.ok_of_ite h₁ (fun hb h₁ => ?_) fun hb h₁ => ?_
      · rw [ne_eq, GicDistributorMmio.and_one_eq_zero, Bool.not_eq_false] at hb
        exact (completeInterrupt_maintained h₁).congr fun j => by simp [hb]
      · cases h₁
        rw [not_not, GicDistributorMmio.and_one_eq_zero] at hb
        exact Maintained.refl fun j hj => absurd (hb.symm.trans hj.2) (by decide)
    refine (hfirst.trans hrest fun j hj hi => by omega).congr fun j => ?_
    rw [BitVec.getLsbD_ushiftRight]
    constructor
    · rintro (⟨rfl, hb⟩ | ⟨hle, hlt, hb⟩)
      · exact ⟨le_refl _, by omega, by rwa [Nat.sub_self]⟩
      · exact ⟨by omega, by omega, by rwa [show j - i = 1 + (j - (i + 1)) by omega]⟩
    · rintro ⟨hle, hlt, hb⟩
      rcases Nat.eq_or_lt_of_le hle with rfl | hlt'
      · exact .inl ⟨rfl, by rwa [Nat.sub_self] at hb⟩
      · exact .inr ⟨hlt', by omega, by rwa [show j - i = 1 + (j - (i + 1)) by omega] at hb⟩

/-- The maintenance handler completes the registers the processor reports, as far as the code has accessors
for them. -/
theorem maintenanceInterruptHandler_maintained {gic gic' : Gic} {cpu cpu' : Cpu} {eoiBits : BitVec 64}
    (he : IsEisr cpu.ichVtrEl2 cpu.lr eoiBits)
    (h : maintenanceInterruptHandler gic cpu eoiBits = .ok (gic', cpu')) :
    cpu' = { cpu with lr := cpu'.lr } ∧
      Maintained (fun j => j < supportedLrn cpu.ichVtrEl2 ∧ eoiReported (cpu.lr j) = true)
        (gic, cpu.lr) (gic', cpu'.lr) := by
  obtain ⟨⟨gic₁, lr₁⟩, h₁, h₂⟩ := Exec.bind_eq_ok.mp h
  cases h₂
  refine ⟨rfl, (maintenanceFrom_maintained _ _ _ _ _ h₁).congr fun j => ?_⟩
  have hle := supportedLrn_le cpu.ichVtrEl2
  rw [Nat.zero_add, Nat.sub_zero, he j]
  constructor
  · rintro ⟨-, hj, hb⟩
    exact ⟨hj, (Bool.and_eq_true _ _ ▸ hb).2⟩
  · rintro ⟨hj, hb⟩
    exact ⟨Nat.zero_le _, hj, by rw [decide_eq_true (by omega), hb, Bool.and_self]⟩

end MiniVisor
