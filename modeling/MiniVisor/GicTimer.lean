import MiniVisor.GicDelivery
import MiniVisor.Transition

/-!
# The physical timer

`irq_handler` deactivates the interrupt that it has handled, unless it is the one of the generic
timer. That one is handed to the guest as INTID 27 with its physical INTID in the list register, so
that the processor deactivates it when the guest completes INTID 27. Until then the timer does not
interrupt again.

`TimerEntry` is a list register that can do so. While the timer's interrupt is active and there is
none, nothing that the guest or the hypervisor does gets it deactivated (`timerRun_recovers_iff`).
This is what happens exactly if the timer interrupts while the guest has INTID 27 disabled or its
redistributor asleep, or while INTID 27 is in a list register because the guest has set it pending,
or no list register is free (`timerIrq_recovers_iff`). -/

namespace MiniVisor

open Machine Vgic Relation

/-! ## Interrupts of the hypervisor -/

def maintenanceInterruptIntId : BitVec 32 := 25#32
def genericTimerVirtualIntId : ℕ := 27

/-- What `irq_handler` calls. -/
inductive IrqHandler
  | handleInput
  | maintenanceInterruptHandler
  | injectInterruptHandler
  | genericTimerInterruptHandler
  | none
  deriving DecidableEq

/-- `irq_handler` : what it calls, and whether it deactivates the interrupt. -/
def irqHandler (pl011IntId genericTimerPhysicalIntId interruptNumber : BitVec 32) : IrqHandler × Bool :=
  if interruptNumber = pl011IntId then (.handleInput, true)
  else if interruptNumber = maintenanceInterruptIntId then (.maintenanceInterruptHandler, true)
  else if interruptNumber = BitVec.ofNat 32 injectInterruptIntId then (.injectInterruptHandler, true)
  else if interruptNumber = genericTimerPhysicalIntId then (.genericTimerInterruptHandler, false)
  else (.none, true)

/-- Everything but a completion, and a trigger that comes with a physical INTID. -/
def GicEvent.Software : GicEvent → Prop
  | distributorTrigger _ p => p = none
  | distributorTriggerOn _ _ p => p = none
  | redistributorTrigger _ p => p = none
  | redistributorTriggerOn _ _ p => p = none
  | endOfInterrupt _ => False
  | _ => True

/-- One event of those. -/
def SoftwareStep (s s' : Gic × Cpu) : Prop :=
  ∃ e : GicEvent, e.Software ∧ e.Possible s.2 ∧ e.exec s = .ok s'

/-- What the handlers do. `handle_input` hands bytes to the UART, which triggers its interrupt. -/
def IrqHandler.Runs (genericTimerPhysicalIntId : BitVec 32) (s s' : Gic × Cpu) : IrqHandler → Prop
  | handleInput => ReflTransGen SoftwareStep s s'
  | maintenanceInterruptHandler => ∃ eoiBits, IsEisr s.2.ichVtrEl2 s.2.lr eoiBits ∧
      (GicEvent.maintenanceInterruptHandler eoiBits).exec s = .ok s'
  | injectInterruptHandler => GicEvent.injectInterruptHandler.exec s = .ok s'
  | genericTimerInterruptHandler =>
      (GicEvent.redistributorTrigger genericTimerVirtualIntId (some genericTimerPhysicalIntId)).exec
      s = .ok s'
  | none => s' = s

/-- The physical INTID of a register. -/
def pIntId (r : BitVec 64) : BitVec 32 :=
  ((r >>> 32) &&& 0x3FF#64).setWidth 32

/-- The physical interrupts that are active when the guest has completed the interrupt of a register : the
processor deactivates the one of an active register with the bit `HW`. -/
def afterCompletion (r : BitVec 64) (active : BitVec 32 → Bool) : BitVec 32 → Bool :=
  if r &&& ichLrnEl2StatusActive ≠ 0#64 ∧ r &&& ichLrnEl2Hw ≠ 0#64 then
    Function.update active (pIntId r) false
  else active

/-- The interrupt controller of the VM with the list registers, and the physical interrupts that
were acknowledged and not deactivated. -/
structure TimerState where
  gic : Gic × Cpu
  active : BitVec 32 → Bool

/-- An interrupt that the hypervisor takes, or any other event. -/
inductive TimerStep (pl011IntId genericTimerPhysicalIntId : BitVec 32) : TimerState → TimerState → Prop
  | irq {s : TimerState} {gic : Gic × Cpu} (interruptNumber : BitVec 32)
      (hinactive : s.active interruptNumber = false)
      (hr : (irqHandler pl011IntId genericTimerPhysicalIntId interruptNumber).1.Runs
        genericTimerPhysicalIntId
        s.gic gic) :
      TimerStep pl011IntId genericTimerPhysicalIntId s ⟨gic,
        if (irqHandler pl011IntId genericTimerPhysicalIntId interruptNumber).2 then s.active
        else Function.update s.active interruptNumber true⟩
  | event {s : TimerState} {gic : Gic × Cpu} (e : GicEvent) (hs : e.Software) (hp : e.Possible s.gic.2)
      (he : e.exec s.gic = .ok gic) :
      TimerStep pl011IntId genericTimerPhysicalIntId s ⟨gic, s.active⟩
  | endOfInterrupt {s : TimerState} {gic : Gic × Cpu} (i : ℕ) (hi : i < numberOfLrn s.gic.2.ichVtrEl2)
      (he : (GicEvent.endOfInterrupt i).exec s.gic = .ok gic) :
      TimerStep pl011IntId genericTimerPhysicalIntId s ⟨gic, afterCompletion (s.gic.2.lr i) s.active⟩

/-- From inactive list registers and empty queues on. -/
def timerSystem (pl011IntId genericTimerPhysicalIntId : BitVec 32) : System TimerState where
  Init s := (∀ i, isInactive (s.gic.2.lr i) = true) ∧ s.gic.1.distributor.toInjectInterrupt = [] ∧
    s.gic.1.redistributor.toInjectInterrupt = [] ∧
    s.gic.1.redistributor.affinity = mpidrToAffinity s.gic.2.mpidrEl1 ∧ ∀ n, s.active n = false
  Step := TimerStep pl011IntId genericTimerPhysicalIntId

/-! ## Entries -/

/-- A register whose completion deactivates the physical interrupt. -/
def TimerEntry (p : BitVec 32) (r : BitVec 64) : Prop :=
  isInactive r = false ∧ r &&& ichLrnEl2Hw ≠ 0#64 ∧ pIntId r = p

variable {p : BitVec 32} {r e v : BitVec 64} {lr lr' : ListRegisters}

theorem not_timerEntry_of_inactive (h : isInactive r = true) : ¬TimerEntry p r := by
  rintro ⟨hr, -, -⟩
  rw [h] at hr
  cases hr

theorem not_timerEntry_of_software (h : r &&& ichLrnEl2Hw = 0#64) : ¬TimerEntry p r :=
  fun hr => hr.2.1 h

theorem and_ichLrnEl2Hw_eq_zero : r &&& ichLrnEl2Hw = 0#64 ↔ r.getLsbD 61 = false := by
  have hhw : ichLrnEl2Hw = BitVec.twoPow 64 61 := by decide
  rw [hhw, BitVec.and_twoPow]
  cases r.getLsbD 61
  · simp
  · simp [← hhw, ichLrnEl2Hw]

theorem getLsbD_pIntId (r : BitVec 64) (i : ℕ) : (pIntId r).getLsbD i =
    (decide (i < 10) && r.getLsbD (32 + i)) := by
  rw [pIntId, BitVec.getLsbD_setWidth, BitVec.getLsbD_and, BitVec.getLsbD_ushiftRight,
    show (0x3FF#64) = BitVec.ofNat 64 (2 ^ 10 - 1) by decide, BitVec.getLsbD_ofNat,
        Nat.testBit_two_pow_sub_one]
  by_cases h10 : i < 10
  · simp [h10, show i < 32 by omega, show i < 64 by omega]
  · simp [h10]

/-- Bits that are neither the bit `HW` nor of the physical INTID. -/
theorem timerEntry_congr {s : BitVec 64} (hstatus : isInactive s = isInactive r)
    (hbits : ∀ i, i = 61 ∨ 32 ≤ i ∧ i < 42 → s.getLsbD i = r.getLsbD i) : TimerEntry p s ↔
    TimerEntry p r := by
  have hpid : pIntId s = pIntId r := by
    refine BitVec.eq_of_getLsbD_eq fun i _ => ?_
    rw [getLsbD_pIntId, getLsbD_pIntId]
    by_cases h10 : i < 10
    · rw [hbits (32 + i) (.inr (by omega))]
    · rw [decide_eq_false h10, Bool.false_and, Bool.false_and]
  rw [TimerEntry, TimerEntry, hstatus, hpid, ne_eq, ne_eq, and_ichLrnEl2Hw_eq_zero,
    and_ichLrnEl2Hw_eq_zero,
    hbits 61 (.inl rfl)]

theorem getLsbD_shiftLeft_of_lt (x : BitVec 64) {i n : ℕ} (hi : i < n) : (x <<< n).getLsbD i = false := by
  rw [BitVec.getLsbD_shiftLeft, decide_eq_true hi]
  simp

theorem timerEntry_or_pending (h : isInactive r = false) :
    TimerEntry p (r ||| ichLrnEl2StatusPending) ↔ TimerEntry p r := by
  refine timerEntry_congr ((isInactive_or_pending r).trans h.symm) fun i hi => ?_
  rw [BitVec.getLsbD_or, ichLrnEl2StatusPending, getLsbD_shiftLeft_of_lt _ (by omega), Bool.or_false]

/-- A change of the status. -/
theorem getLsbD_setStatus (r x : BitVec 64) {i : ℕ} (hi : i < 62) :
    ((r &&& ~~~ichLrnEl2Status) ||| x <<< 62).getLsbD i = r.getLsbD i := by
  rw [BitVec.getLsbD_or, BitVec.getLsbD_and, BitVec.getLsbD_not, ichLrnEl2Status,
    getLsbD_shiftLeft_of_lt _ hi,
    getLsbD_shiftLeft_of_lt _ hi, decide_eq_true (by omega)]
  simp

theorem timerEntry_acknowledge : TimerEntry p (acknowledge r) ↔ TimerEntry p r := by
  refine timerEntry_congr (isInactive_acknowledge r) fun i hi => ?_
  unfold acknowledge
  split_ifs
  · exact getLsbD_setStatus r _ (by omega)
  · rfl

theorem timerEntry_of_endOfInterrupt (h : TimerEntry p (endOfInterrupt r)) : TimerEntry p r := by
  have hr : isInactive r = false := by
    by_contra hin
    have := isInactive_endOfInterrupt (Bool.of_not_eq_false hin)
    rw [h.1] at this
    cases this
  refine (timerEntry_congr (h.1.trans hr.symm) fun i hi => ?_).mp h
  unfold endOfInterrupt
  split_ifs
  · rw [BitVec.getLsbD_and, BitVec.getLsbD_not, ichLrnEl2Status, getLsbD_shiftLeft_of_lt _ (by omega),
      decide_eq_true (by omega)]
    simp
  · exact getLsbD_setStatus r _ (by omega)
  · rfl

/-- An entry that comes with a physical INTID. -/
theorem timerEntry_create (hp : p.toNat < 2 ^ 10) (intId group priority : BitVec 32) :
    TimerEntry p (createListRegisterEntry intId group priority (some p)) := by
  refine ⟨isInactive_createListRegisterEntry .., fun h => ?_, BitVec.eq_of_getLsbD_eq fun i _ => ?_⟩
  · rw [and_ichLrnEl2Hw_eq_zero] at h
    simp [createListRegisterEntry, ichLrnEl2Hw] at h
  · rw [getLsbD_pIntId]
    by_cases h10 : i < 10
    · rw [decide_eq_true h10, Bool.true_and, createListRegisterEntry]
      simp only [BitVec.getLsbD_or, ichLrnEl2StatusPending, ichLrnEl2Hw]
      rw [getLsbD_shiftLeft_of_lt _ (by omega), getLsbD_shiftLeft_of_lt _ (by omega),
        getLsbD_shiftLeft_of_lt _ (by omega), getLsbD_shiftLeft_of_lt _ (by omega)]
      simp [show 32 + i < 64 by omega]
    · rw [decide_eq_false h10, Bool.false_and]
      exact (Nat.testBit_lt_two_pow (hp.trans_le (Nat.pow_le_pow_right (by decide) (not_lt.mp h10)))).symm

/-- An entry without one. -/
theorem software_create (intId : BitVec 32) {group priority : BitVec 32} (hg : group.toNat < 2 ^ 1)
    (hpr : priority.toNat < 2 ^ 8) :
    createListRegisterEntry intId group priority none &&& ichLrnEl2Hw = 0#64 := by
  have hgroup : group.getLsbD 1 = false := Nat.testBit_lt_two_pow hg
  have hpriority : priority.getLsbD 13 = false :=
    Nat.testBit_lt_two_pow (hpr.trans_le (Nat.pow_le_pow_right (by decide) (by decide)))
  rw [and_ichLrnEl2Hw_eq_zero]
  simpa [createListRegisterEntry, ichLrnEl2Eoi, ichLrnEl2StatusPending] using ⟨hgroup, hpriority⟩

/-- A software interrupt that is handed to the list registers. -/
theorem timerEntry_addVirtualInterrupt (he : e &&& ichLrnEl2Hw = 0#64) (i : ℕ) :
    TimerEntry p (addVirtualInterrupt v lr e i) ↔ TimerEntry p (lr i) := by
  unfold addVirtualInterrupt
  cases hslot : slotFor v lr e with
  | none => rfl
  | some j =>
    dsimp only
    split_ifs with hin
    · by_cases hij : i = j
      · subst hij
        rw [Function.update_self]
        exact iff_of_false (not_timerEntry_of_software he) (not_timerEntry_of_inactive hin)
      · rw [Function.update_of_ne hij]
    · by_cases hij : i = j
      · subst hij
        rw [Function.update_self]
        exact timerEntry_or_pending (Bool.of_not_eq_true hin)
      · rw [Function.update_of_ne hij]

theorem timerEntry_injectAll {queue : List (BitVec 64)} (hq : ∀ e ∈ queue, e &&& ichLrnEl2Hw = 0#64)
    (i : ℕ) :
    TimerEntry p (injectAll v lr queue i) ↔ TimerEntry p (lr i) := by
  induction queue generalizing lr with
  | nil => rfl
  | cons e queue ih =>
    obtain ⟨he, hqueue⟩ := List.forall_mem_cons.mp hq
    exact (ih hqueue).trans (timerEntry_addVirtualInterrupt he i)

/-! ## What software interrupts keep -/

/-- No entry with a physical INTID is queued. -/
def Gic.Software (gic : Gic) : Prop :=
  (∀ e ∈ gic.distributor.toInjectInterrupt, e &&& ichLrnEl2Hw = 0#64) ∧
    ∀ e ∈ gic.redistributor.toInjectInterrupt, e &&& ichLrnEl2Hw = 0#64

/-- The registers that complete the timer's interrupt are the same in `s` and in `s'`. -/
structure TimerKept (p : BitVec 32) (s s' : Gic × Cpu) : Prop where
  entries : ∀ i, TimerEntry p (s'.2.lr i) ↔ TimerEntry p (s.2.lr i)
  software : s'.1.Software
  affinity : s'.1.redistributor.affinity = s.1.redistributor.affinity
  mpidrEl1 : s'.2.mpidrEl1 = s.2.mpidrEl1
  ichVtrEl2 : s'.2.ichVtrEl2 = s.2.ichVtrEl2

namespace TimerKept

variable {s s' : Gic × Cpu} {gic : Gic} {cpu cpu' : Cpu} {n : ℕ}

theorem refl (h : s.1.Software) : TimerKept p s s :=
  ⟨fun _ => Iff.rfl, h, rfl, rfl, rfl⟩

theorem trans {s'' : Gic × Cpu} (h : TimerKept p s s') (h' : TimerKept p s' s'') : TimerKept p s s'' :=
  ⟨fun i => (h'.entries i).trans (h.entries i), h'.software, h'.affinity.trans h.affinity,
    h'.mpidrEl1.trans h.mpidrEl1, h'.ichVtrEl2.trans h.ichVtrEl2⟩

/-- Other list registers. -/
theorem registers (h : TimerKept p s (gic, cpu)) {lr : ListRegisters}
    (hlr : ∀ i, TimerEntry p (lr i) ↔ TimerEntry p (cpu.lr i)) : TimerKept p s (gic, { cpu with lr }) :=
  ⟨fun i => (hlr i).trans (h.entries i), h.software, h.affinity, h.mpidrEl1, h.ichVtrEl2⟩

/-- SGIs. -/
theorem sent (h : TimerKept p s (gic, cpu)) (l : List (BitVec 64)) :
    TimerKept p s (gic, { cpu with iccSgi1rEl1 := l }) :=
  ⟨h.entries, h.software, h.affinity, h.mpidrEl1, h.ichVtrEl2⟩

/-- Another distributor. -/
theorem distributor (h : TimerKept p s (gic, cpu)) (d : GicDistributorMmio)
    (hd : ∀ e ∈ d.toInjectInterrupt, e ∈ gic.distributor.toInjectInterrupt ∨ e &&& ichLrnEl2Hw = 0#64) :
    TimerKept p s ({ gic with distributor := d }, cpu) :=
  ⟨h.entries, ⟨fun e he => (hd e he).elim (h.software.1 e) id, h.software.2⟩, h.affinity,
    h.mpidrEl1, h.ichVtrEl2⟩

/-- Another redistributor. -/
theorem redistributor (h : TimerKept p s (gic, cpu)) (r : GicRedistributorMmio)
    (haff : r.affinity = gic.redistributor.affinity)
    (hr : ∀ e ∈ r.toInjectInterrupt, e ∈ gic.redistributor.toInjectInterrupt ∨ e &&& ichLrnEl2Hw = 0#64) :
    TimerKept p s ({ gic with redistributor := r }, cpu) :=
  ⟨h.entries, ⟨h.software.1, fun e he => (hr e he).elim (h.software.2 e) id⟩, haff.trans h.affinity,
    h.mpidrEl1,
    h.ichVtrEl2⟩

/-- Fields that are masked. -/
theorem toNat_and_lt (x y : BitVec 32) {k : ℕ} (hy : y.toNat < 2 ^ k) : (x &&& y).toNat < 2 ^ k := by
  rw [BitVec.toNat_and]
  exact Nat.and_lt_two_pow _ hy

theorem software_distributorEntry (d : GicDistributorMmio) : d.listEntry n none &&& ichLrnEl2Hw = 0#64 :=
  software_create _ (toNat_and_lt _ _ (by decide)) (toNat_and_lt _ _ (by decide))

theorem software_redistributorEntry (r : GicRedistributorMmio) :
    r.listEntry n none &&& ichLrnEl2Hw = 0#64 :=
  software_create _ (toNat_and_lt _ _ (by decide)) (toNat_and_lt _ _ (by decide))

theorem mem_append_software {queue : List (BitVec 64)} {x : BitVec 64} (hx : x &&& ichLrnEl2Hw = 0#64) :
    ∀ e ∈ queue ++ [x], e ∈ queue ∨ e &&& ichLrnEl2Hw = 0#64 := by
  intro e he
  obtain he | he := List.mem_append.mp he
  · exact .inl he
  · exact .inr (List.mem_singleton.mp he ▸ hx)

theorem distributorTrigger (h : TimerKept p s (gic, cpu)) {d : GicDistributorMmio}
    (he : gic.distributor.triggerInterrupt cpu n none = .ok (d, cpu')) :
    TimerKept p s ({ gic with distributor := d }, cpu') := by
  obtain ⟨-, rfl, rfl⟩ | ⟨-, -, rfl, rfl⟩ | ⟨-, -, -, rfl, rfl⟩ | ⟨-, -, -, rfl, rfl⟩ :=
    GicDistributorMmio.triggerInterrupt_cases he
  · exact h
  · exact h.distributor _ fun e he => .inl he
  · exact (h.registers
      (timerEntry_addVirtualInterrupt (software_distributorEntry gic.distributor))).distributor _
      fun e he => .inl he
  · exact (h.sent _).distributor _ (mem_append_software (software_distributorEntry gic.distributor))

theorem redistributorTrigger (h : TimerKept p s (gic, cpu)) {r : GicRedistributorMmio}
    (he : gic.redistributor.triggerInterrupt cpu n none = .ok (r, cpu')) :
    TimerKept p s ({ gic with redistributor := r }, cpu') := by
  obtain ⟨-, rfl, rfl⟩ | ⟨-, -, rfl, rfl⟩ | ⟨-, -, -, rfl, rfl⟩ | ⟨-, -, -, rfl, rfl⟩ :=
    GicRedistributorMmio.triggerInterrupt_cases he
  · exact h
  · exact h.redistributor _ rfl fun e he => .inl he
  · exact (h.registers
      (timerEntry_addVirtualInterrupt (software_redistributorEntry gic.redistributor))).redistributor
      _ rfl fun e he => .inl he
  · exact (h.sent _).redistributor _ rfl
      (mem_append_software (software_redistributorEntry gic.redistributor))

/-- On another CPU only the queues change. -/
theorem distributorTriggerOn (h : TimerKept p s (gic, cpu)) {d : GicDistributorMmio} {other other' : Cpu}
    (he : gic.distributor.triggerInterrupt other n none = .ok (d, other')) :
    TimerKept p s ({ gic with distributor := d }, cpu) := by
  obtain ⟨-, rfl, -⟩ | ⟨-, -, rfl, -⟩ | ⟨-, -, -, rfl, -⟩ | ⟨-, -, -, rfl, -⟩ :=
    GicDistributorMmio.triggerInterrupt_cases he
  · exact h
  · exact h.distributor _ fun e he => .inl he
  · exact h.distributor _ fun e he => .inl he
  · exact h.distributor _ (mem_append_software (software_distributorEntry gic.distributor))

theorem redistributorTriggerOn (h : TimerKept p s (gic, cpu)) {r : GicRedistributorMmio}
    {other other' : Cpu}
    (he : gic.redistributor.triggerInterrupt other n none = .ok (r, other')) :
    TimerKept p s ({ gic with redistributor := r }, cpu) := by
  obtain ⟨-, rfl, -⟩ | ⟨-, -, rfl, -⟩ | ⟨-, -, -, rfl, -⟩ | ⟨-, -, -, rfl, -⟩ :=
    GicRedistributorMmio.triggerInterrupt_cases he
  · exact h
  · exact h.redistributor _ rfl fun e he => .inl he
  · exact h.redistributor _ rfl fun e he => .inl he
  · exact h.redistributor _ rfl (mem_append_software (software_redistributorEntry gic.redistributor))

theorem distributorScan {test : GicDistributorMmio → ℕ → Exec Bool} {d d' : GicDistributorMmio}
    {value : BitVec 64}
    (h : TimerKept p s ({ gic with distributor := d }, cpu))
    (hs : d.scan test cpu n value = .ok (d', cpu')) :
    TimerKept p s ({ gic with distributor := d' }, cpu') := by
  exact GicDistributorMmio.scan_triggers
    (I := fun x => TimerKept p s ({ gic with distributor := x.1 }, x.2))
    (fun h htrig => TimerKept.distributorTrigger h htrig) h hs

theorem redistributorScan {test : GicRedistributorMmio → ℕ → Exec Bool} {r r' : GicRedistributorMmio}
    {value : BitVec 64} (h : TimerKept p s ({ gic with redistributor := r }, cpu))
    (hs : r.scan test cpu value = .ok (r', cpu')) : TimerKept p s
    ({ gic with redistributor := r' }, cpu') := by
  exact GicRedistributorMmio.scan_triggers
    (I := fun x => TimerKept p s ({ gic with redistributor := x.1 }, x.2))
    (fun h htrig => TimerKept.redistributorTrigger h htrig) h hs

theorem distributorWrite (h : TimerKept p s (gic, cpu)) {offset w : ℕ} {value : BitVec 64}
    {d : GicDistributorMmio}
    (he : gic.distributor.write cpu offset w value = .ok (d, cpu')) :
    TimerKept p s ({ gic with distributor := d }, cpu') := by
  have hsame : ∀ d : GicDistributorMmio, d.toInjectInterrupt = gic.distributor.toInjectInterrupt →
      TimerKept p s ({ gic with distributor := d }, cpu) :=
    fun d hd => h.distributor d fun e he => .inl (hd ▸ he)
  cases GicDistributorMmio.write_cases he with
  | isenabler _ _ _ _ _ hs | ispendr _ _ _ _ _ hs =>
    refine TimerKept.distributorScan ?_ hs
    exact hsame _ rfl
  | ctlr | settings | groupModifier | icenabler | icpendr | isactiver | icactiver => exact hsame _ rfl

theorem redistributorWrite (h : TimerKept p s (gic, cpu)) {offset w : ℕ} {value : BitVec 64}
    {r : GicRedistributorMmio} (he : gic.redistributor.write cpu offset w value = .ok (r, cpu')) :
    TimerKept p s ({ gic with redistributor := r }, cpu') := by
  have hsame : ∀ r : GicRedistributorMmio, r.affinity = gic.redistributor.affinity →
      r.toInjectInterrupt = gic.redistributor.toInjectInterrupt →
      TimerKept p s ({ gic with redistributor := r }, cpu) :=
    fun r haff hr => h.redistributor r haff fun e he => .inl (hr ▸ he)
  cases GicRedistributorMmio.write_cases he with
  | isenabler _ _ hs | ispendr _ _ hs =>
    refine TimerKept.redistributorScan ?_ hs
    exact hsame _ rfl rfl
  | settings | icpendr | isactiver | icactiver => exact hsame _ rfl rfl

theorem injectInterruptHandler (h : TimerKept p s (gic, cpu)) :
    TimerKept p s (MiniVisor.injectInterruptHandler gic cpu) := by
  have hnil : ∀ e ∈ ([] : List (BitVec 64)), e &&& ichLrnEl2Hw = 0#64 := List.forall_mem_nil _
  refine ⟨fun i => ?_, ⟨hnil, hnil⟩, h.affinity, h.mpidrEl1, h.ichVtrEl2⟩
  exact (timerEntry_injectAll h.software.2 i).trans
    ((timerEntry_injectAll h.software.1 i).trans (h.entries i))

theorem maintenanceInterruptHandler (h : TimerKept p s (gic, cpu)) {gic' : Gic} {eoiBits : BitVec 64}
    (he : IsEisr cpu.ichVtrEl2 cpu.lr eoiBits)
    (hx : MiniVisor.maintenanceInterruptHandler gic cpu eoiBits = .ok (gic', cpu')) :
    TimerKept p s (gic', cpu') := by
  obtain ⟨hcpu, hm⟩ := maintenanceInterruptHandler_maintained he hx
  obtain ⟨_, _, hd⟩ := hm.distributor
  obtain ⟨_, _, hr⟩ := hm.redistributor
  dsimp only at hd hr
  have hqueue : gic'.distributor.toInjectInterrupt = gic.distributor.toInjectInterrupt := by rw [hd]
  have hqueue' : gic'.redistributor.toInjectInterrupt = gic.redistributor.toInjectInterrupt := by rw [hr]
  have hgic : TimerKept p s (gic', cpu) := by
    refine ⟨h.entries, ⟨?_, ?_⟩, ?_, h.mpidrEl1, h.ichVtrEl2⟩
    · rw [hqueue]
      exact h.software.1
    · rw [hqueue']
      exact h.software.2
    · rw [show gic'.redistributor.affinity = gic.redistributor.affinity by rw [hr]]
      exact h.affinity
  rw [hcpu]
  refine hgic.registers fun i => ?_
  by_cases hi : i < supportedLrn cpu.ichVtrEl2 ∧ eoiReported (cpu.lr i) = true
  · -- A register that reports a completion is inactive.
    have hin : isInactive (cpu.lr i) = true := by
      have := hi.2
      rw [eoiReported, Bool.and_eq_true, Bool.and_eq_true] at this
      exact this.1.1
    rw [show cpu'.lr i = 0#64 from hm.cleared i hi]
    exact iff_of_false (not_timerEntry_of_inactive isInactive_zero) (not_timerEntry_of_inactive hin)
  · rw [show cpu'.lr i = cpu.lr i from hm.kept i hi]

theorem acknowledge (h : TimerKept p s (gic, cpu)) (i : ℕ) :
    TimerKept p s (gic, { cpu with lr := Function.update cpu.lr i (Vgic.acknowledge (cpu.lr i)) }) := by
  refine h.registers fun j => ?_
  by_cases hj : j = i
  · subst hj
    rw [Function.update_self]
    exact timerEntry_acknowledge
  · rw [Function.update_of_ne hj]

/-- Everything but a completion, and a trigger with a physical INTID. -/
theorem event (h : s.1.Software) {e : GicEvent} (hs : e.Software) (hp : e.Possible s.2)
    (he : e.exec s = .ok s') :
    TimerKept p s s' := by
  obtain ⟨gic, cpu⟩ := s
  have h₀ : TimerKept p (gic, cpu) (gic, cpu) := .refl h
  cases e with
  | distributorTrigger n q =>
    obtain rfl : q = none := hs
    obtain ⟨_, hx, hpure⟩ := Exec.bind_eq_ok.mp he
    cases hpure
    exact h₀.distributorTrigger hx
  | distributorTriggerOn other n q =>
    obtain rfl : q = none := hs
    obtain ⟨_, hx, hpure⟩ := Exec.bind_eq_ok.mp he
    cases hpure
    exact h₀.distributorTriggerOn hx
  | redistributorTrigger n q =>
    obtain rfl : q = none := hs
    obtain ⟨_, hx, hpure⟩ := Exec.bind_eq_ok.mp he
    cases hpure
    exact h₀.redistributorTrigger hx
  | redistributorTriggerOn other n q =>
    obtain rfl : q = none := hs
    obtain ⟨_, hx, hpure⟩ := Exec.bind_eq_ok.mp he
    cases hpure
    exact h₀.redistributorTriggerOn hx
  | distributorWrite offset w value =>
    obtain ⟨_, hx, hpure⟩ := Exec.bind_eq_ok.mp he
    cases hpure
    exact h₀.distributorWrite hx
  | redistributorWrite offset w value =>
    obtain ⟨_, hx, hpure⟩ := Exec.bind_eq_ok.mp he
    cases hpure
    exact h₀.redistributorWrite hx
  | injectInterruptHandler =>
    cases he
    exact h₀.injectInterruptHandler
  | maintenanceInterruptHandler eoiBits => exact h₀.maintenanceInterruptHandler hp he
  | acknowledge i =>
    cases he
    exact h₀.acknowledge i
  | endOfInterrupt i => cases hs

/-- The handlers of other interrupts. -/
theorem handler (h : s.1.Software) {handler : IrqHandler} (hne : handler ≠ .genericTimerInterruptHandler)
    {q : BitVec 32} (hr : handler.Runs q s s') : TimerKept p s s' := by
  cases handler with
  | handleInput =>
    have hrun : ReflTransGen SoftwareStep s s' := hr
    clear hr
    induction hrun with
    | refl => exact .refl h
    | tail _ hstep ih =>
      obtain ⟨e, hs, hp, he⟩ := hstep
      exact ih.trans (event ih.software hs hp he)
  | maintenanceInterruptHandler =>
    obtain ⟨eoiBits, hp, he⟩ := hr
    exact (TimerKept.refl h).maintenanceInterruptHandler hp he
  | injectInterruptHandler =>
    cases hr
    exact (TimerKept.refl h).injectInterruptHandler
  | genericTimerInterruptHandler => exact absurd rfl hne
  | none =>
    obtain rfl : s' = s := hr
    exact .refl h

end TimerKept

/-! ## Runs -/

variable {q n : BitVec 32} {s s' : TimerState}

theorem irqHandler_eq_timer (h : (irqHandler q p n).1 = .genericTimerInterruptHandler) : n = p := by
  unfold irqHandler at h
  split_ifs at h with h₁ h₂ h₃ h₄
  exact h₄

/-- What all states of the runs have in common. -/
structure TimerInv (s : TimerState) : Prop where
  software : s.gic.1.Software
  affinity : s.gic.1.redistributor.affinity = mpidrToAffinity s.gic.2.mpidrEl1

/-- The timer's interrupt is handed to the guest : a list register takes it that is free. -/
def HandsOver (p : BitVec 32) (s : Gic × Cpu) : Prop :=
  s.1.redistributor.Delivers genericTimerVirtualIntId ∧
    ∃ i, slotFor s.2.ichVtrEl2 s.2.lr (s.1.redistributor.listEntry genericTimerVirtualIntId
      (some p)) = some i ∧
      isInactive (s.2.lr i) = true

/-- What the handler of the timer does. The redistributor is the one of this CPU. -/
theorem timer_cases {x y : Gic × Cpu} (haff : x.1.redistributor.affinity = mpidrToAffinity x.2.mpidrEl1)
    (hr : IrqHandler.genericTimerInterruptHandler.Runs p x y) :
    y.1.distributor = x.1.distributor ∧
      y.1.redistributor.toInjectInterrupt = x.1.redistributor.toInjectInterrupt ∧
      y.1.redistributor.affinity = x.1.redistributor.affinity ∧
      (¬x.1.redistributor.Delivers genericTimerVirtualIntId ∧ y.2 = x.2 ∨
        x.1.redistributor.Delivers genericTimerVirtualIntId ∧ y.2 = { x.2 with
          lr := addVirtualInterrupt x.2.ichVtrEl2 x.2.lr
            (x.1.redistributor.listEntry genericTimerVirtualIntId (some p)) }) := by
  obtain ⟨gic, cpu⟩ := x
  obtain ⟨⟨r, cpu'⟩, hx, hpure⟩ := Exec.bind_eq_ok.mp hr
  cases hpure
  obtain ⟨hasleep, rfl, rfl⟩ | ⟨-, hno, rfl, rfl⟩ | ⟨-, hdel, -, rfl, rfl⟩ | ⟨-, -, hother, -, -⟩ :=
    GicRedistributorMmio.triggerInterrupt_cases hx
  · exact ⟨rfl, rfl, rfl, .inl ⟨fun hdel => hasleep hdel.1, rfl⟩⟩
  · exact ⟨rfl, rfl, rfl, .inl ⟨hno, rfl⟩⟩
  · exact ⟨rfl, rfl, rfl, .inr ⟨hdel, rfl⟩⟩
  · exact absurd haff hother

theorem TimerInv.step (h : TimerInv s) (hs : TimerStep q p s s') : TimerInv s' := by
  have hkept : ∀ {gic : Gic × Cpu} {active : BitVec 32 → Bool}, TimerKept p s.gic gic → TimerInv
      ⟨gic, active⟩ := by
    intro gic active hk
    refine ⟨hk.software, ?_⟩
    rw [hk.affinity, hk.mpidrEl1]
    exact h.affinity
  cases hs with
  | irq n hinactive hr =>
    by_cases hne : (irqHandler q p n).1 = .genericTimerInterruptHandler
    · rw [hne] at hr
      obtain ⟨hd, hq, haff, hcpu⟩ := timer_cases h.affinity hr
      refine ⟨⟨by rw [hd]; exact h.software.1, by rw [hq]; exact h.software.2⟩, ?_⟩
      obtain ⟨-, hcpu⟩ | ⟨-, hcpu⟩ := hcpu
      · rw [haff, hcpu]
        exact h.affinity
      · rw [haff, hcpu]
        exact h.affinity
    · exact hkept (.handler h.software hne hr)
  | event e hsoft hp he => exact hkept (.event h.software hsoft hp he)
  | endOfInterrupt i hi he =>
    cases he
    exact ⟨h.software, h.affinity⟩

theorem timerInv_of_reachable (h : (timerSystem q p).Reachable s) : TimerInv s := by
  refine h.induction (P := TimerInv) (fun s hinit => ?_) fun s s' _ ih hs => ih.step hs
  obtain ⟨-, hd, hr, haff, -⟩ := hinit
  refine ⟨⟨?_, ?_⟩, haff⟩
  · rw [hd]
    exact List.forall_mem_nil _
  · rw [hr]
    exact List.forall_mem_nil _

/-- The timer's interrupt is active, and no list register gets it deactivated. -/
def Stuck (p : BitVec 32) (s : TimerState) : Prop :=
  s.active p = true ∧ ∀ i < numberOfLrn s.gic.2.ichVtrEl2, ¬TimerEntry p (s.gic.2.lr i)

theorem Stuck.step (h : Stuck p s) (hinv : TimerInv s) (hs : TimerStep q p s s') : Stuck p s' := by
  have hkept : ∀ {gic : Gic × Cpu} {active : BitVec 32 → Bool}, TimerKept p s.gic gic → active p = true →
      Stuck p ⟨gic, active⟩ := by
    intro gic active hk hactive
    refine ⟨hactive, fun i hi hentry => h.2 i (hk.ichVtrEl2 ▸ hi) ((hk.entries i).mp hentry)⟩
  cases hs with
  | irq n hinactive hr =>
    have hnp : n ≠ p := by
      rintro rfl
      rw [h.1] at hinactive
      cases hinactive
    refine hkept (.handler hinv.software (fun heq => hnp (irqHandler_eq_timer heq)) hr) ?_
    split_ifs
    · exact h.1
    · rw [Function.update_of_ne hnp.symm]
      exact h.1
  | event e hsoft hp he => exact hkept (.event hinv.software hsoft hp he) h.1
  | endOfInterrupt i hi he =>
    cases he
    refine ⟨?_, fun j hj hentry => ?_⟩
    · dsimp only
      unfold afterCompletion
      split_ifs with hdone
      · -- The register is none of the timer's.
        have hne : pIntId (s.gic.2.lr i) ≠ p := fun hpid => h.2 i hi ⟨?_, hdone.2, hpid⟩
        · rw [Function.update_of_ne hne.symm]
          exact h.1
        · by_contra hin
          refine hdone.1 ?_
          have hzero := isInactive_iff.mp (Bool.of_not_eq_false hin)
          have hsub : ichLrnEl2StatusActive = ichLrnEl2Status &&& ichLrnEl2StatusActive := by decide
          rw [hsub, ← BitVec.and_assoc, hzero, BitVec.zero_and]
      · exact h.1
    · by_cases hij : j = i
      · subst hij
        dsimp only at hentry
        rw [Function.update_self] at hentry
        exact h.2 j hi (timerEntry_of_endOfInterrupt hentry)
      · dsimp only at hentry
        rw [Function.update_of_ne hij] at hentry
        exact h.2 j hj hentry

/-- The timer can interrupt again. -/
def Recovers (q p : BitVec 32) (s : TimerState) : Prop :=
  ∃ s', ReflTransGen (TimerStep q p) s s' ∧ s'.active p = false

theorem Stuck.not_recovers (h : Stuck p s) (hinv : TimerInv s) : ¬Recovers q p s := by
  rintro ⟨s', hrun, hinactive⟩
  have hend : TimerInv s' ∧ Stuck p s' := by
    clear hinactive
    induction hrun with
    | refl => exact ⟨hinv, h⟩
    | tail _ hstep ih => exact ⟨ih.1.step hstep, ih.2.step ih.1 hstep⟩
  rw [hend.2.1] at hinactive
  cases hinactive

/-- The guest completes the interrupt of a register that is active. -/
theorem recovers_of_active {i : ℕ} (hi : i < numberOfLrn s.gic.2.ichVtrEl2)
    (h : TimerEntry p (s.gic.2.lr i))
    (hactive : s.gic.2.lr i &&& ichLrnEl2StatusActive ≠ 0#64) : Recovers q p s := by
  refine ⟨_, .single (.endOfInterrupt i hi rfl), ?_⟩
  simp only [afterCompletion, if_pos (show _ ∧ _ from ⟨hactive, h.2.1⟩), h.2.2, Function.update_self]

theorem acknowledge_active (h : isInactive r = false) (hactive : r &&& ichLrnEl2StatusActive = 0#64) :
    acknowledge r &&& ichLrnEl2StatusActive ≠ 0#64 := by
  have hsplit : r &&& ichLrnEl2Status = r &&& ichLrnEl2StatusPending := by
    rw [show ichLrnEl2Status = ichLrnEl2StatusPending ||| ichLrnEl2StatusActive by decide,
      BitVec.and_or_distrib_left, hactive, BitVec.or_zero]
  have hpending : r &&& ichLrnEl2Status = ichLrnEl2StatusPending := by
    have hne : r &&& ichLrnEl2Status ≠ 0#64 := fun hzero => by
      rw [isInactive_iff.mpr hzero] at h
      cases h
    rw [hsplit] at hne ⊢
    rw [show ichLrnEl2StatusPending = BitVec.twoPow 64 62 by decide, BitVec.and_twoPow] at hne ⊢
    split_ifs at hne ⊢ with hbit
    · rfl
    · exact absurd rfl hne
  rw [acknowledge, if_pos hpending, BitVec.and_comm, BitVec.and_or_distrib_left, BitVec.and_self]
  exact fun hzero => absurd (BitVec.or_eq_zero_iff.mp hzero).2 (by decide)

/-- The guest takes the interrupt of a register, and completes it. -/
theorem recovers_of_entry {i : ℕ} (hi : i < numberOfLrn s.gic.2.ichVtrEl2)
    (h : TimerEntry p (s.gic.2.lr i)) :
    Recovers q p s := by
  by_cases hactive : s.gic.2.lr i &&& ichLrnEl2StatusActive = 0#64
  · have hstep : TimerStep q p s ⟨(s.gic.1, { s.gic.2 with
        lr := Function.update s.gic.2.lr i (acknowledge (s.gic.2.lr i)) }), s.active⟩ :=
      .event (.acknowledge i) trivial hi rfl
    have hself : Function.update s.gic.2.lr i (acknowledge (s.gic.2.lr i)) i = acknowledge
        (s.gic.2.lr i) :=
      Function.update_self ..
    obtain ⟨s', hrun, hinactive⟩ : Recovers q p ⟨(s.gic.1, { s.gic.2 with
        lr := Function.update s.gic.2.lr i (acknowledge (s.gic.2.lr i)) }), s.active⟩ := by
      refine recovers_of_active hi ?_ ?_
      · simp only [hself]
        exact timerEntry_acknowledge.mpr h
      · simp only [hself]
        exact acknowledge_active h.1 hactive
    exact ⟨s', .head hstep hrun, hinactive⟩
  · exact recovers_of_active hi h hactive

/-- In no run does the timer interrupt again after its interrupt is active with no entry that can
complete it. In all other states the guest can get it deactivated. -/
theorem timerRun_recovers_iff (h : (timerSystem q p).Reachable s) : Recovers q p s ↔
    (s.active p = true → ∃ i < numberOfLrn s.gic.2.ichVtrEl2, TimerEntry p (s.gic.2.lr i)) := by
  constructor
  · intro hrec hactive
    by_contra hnone
    push Not at hnone
    exact Stuck.not_recovers ⟨hactive, hnone⟩ (timerInv_of_reachable h) hrec
  · intro hentry
    by_cases hactive : s.active p = true
    · obtain ⟨i, hi, hi'⟩ := hentry hactive
      exact recovers_of_entry hi hi'
    · exact ⟨s, .refl, Bool.of_not_eq_true hactive⟩

/-- The timer interrupts before the guest has woken its redistributor up, and never again. -/
theorem timerRun_recovers_iff_asleep : ∃ s, (timerSystem 33#32 30#32).Reachable s ∧
    ¬Recovers 33#32 30#32 s := by
  have h₀ : (timerSystem 33#32 30#32).Reachable ⟨(Gic.new, twoListRegisters), fun _ => false⟩ :=
    .init ⟨fun _ => isInactive_zero, rfl, rfl, by decide, fun _ => rfl⟩
  have h₁ := h₀.step (.irq 30#32 rfl
      (show IrqHandler.genericTimerInterruptHandler.Runs 30#32 _ _ from rfl))
  refine ⟨_, h₁, fun hrec => ?_⟩
  obtain ⟨i, -, hentry⟩ := (timerRun_recovers_iff h₁).mp hrec rfl
  exact not_timerEntry_of_inactive isInactive_zero hentry

/-- Where an entry of the timer is after it was handed to the list registers. -/
theorem exists_timerEntry_iff (he : TimerEntry p e) :
    (∃ i < numberOfLrn v, TimerEntry p (addVirtualInterrupt v lr e i)) ↔
      (∃ i, slotFor v lr e = some i ∧ isInactive (lr i) = true) ∨ ∃ i < numberOfLrn v, TimerEntry p
      (lr i) := by
  unfold addVirtualInterrupt
  cases hslot : slotFor v lr e with
  | none => simp
  | some k =>
    dsimp only
    by_cases hin : isInactive (lr k) = true
    · rw [if_pos hin]
      refine iff_of_true ⟨k, ?_, ?_⟩ (.inl ⟨k, rfl, hin⟩)
      · exact (slotFor_eq_some.mp hslot).1.trans_le (supportedLrn_le v)
      · rw [Function.update_self]
        exact he
    · rw [if_neg hin, or_iff_right]
      · refine exists_congr fun i => and_congr_right fun _ => ?_
        by_cases hik : i = k
        · subst hik
          rw [Function.update_self]
          exact timerEntry_or_pending (Bool.of_not_eq_true hin)
        · rw [Function.update_of_ne hik]
      · rintro ⟨i, hi, hini⟩
        rw [Option.some.inj hi] at hin
        exact hin hini

/-- A timer interrupt that is taken lets the timer interrupt again exactly if it is handed over, or
if a register has kept an entry of an earlier one. -/
theorem timerIrq_recovers_iff (hd : irqHandler q p p = (.genericTimerInterruptHandler, false))
    (hp : p.toNat < 2 ^ 10) (h : (timerSystem q p).Reachable s) (hinactive : s.active p = false)
    {gic : Gic × Cpu}
    (hr : IrqHandler.genericTimerInterruptHandler.Runs p s.gic gic) :
    Recovers q p ⟨gic, Function.update s.active p true⟩ ↔
      HandsOver p s.gic ∨ ∃ i < numberOfLrn s.gic.2.ichVtrEl2, TimerEntry p (s.gic.2.lr i) := by
  have hstep : TimerStep q p s ⟨gic, Function.update s.active p true⟩ := by
    have hirq : TimerStep q p s
        ⟨gic, if (irqHandler q p p).2 then s.active else Function.update s.active p true⟩ :=
      .irq p hinactive (by rwa [hd])
    rwa [hd, if_neg Bool.false_ne_true] at hirq
  have hactive : Function.update s.active p true p = true := Function.update_self ..
  rw [timerRun_recovers_iff (h.step hstep)]
  simp only [hactive, forall_const]
  obtain ⟨-, -, -, ⟨hno, hcpu⟩ | ⟨hdel, hcpu⟩⟩ := timer_cases (timerInv_of_reachable h).affinity hr
  · rw [hcpu, or_iff_right fun hover => hno hover.1]
  · have hentry : TimerEntry p (s.gic.1.redistributor.listEntry genericTimerVirtualIntId (some p)) :=
      timerEntry_create hp ..
    rw [hcpu, exists_timerEntry_iff hentry, HandsOver, and_iff_right hdel]

/-- The timer interrupts while INTID 27 is enabled. -/
theorem timerIrq_recovers_iff_enabled : ∃ gic : Gic × Cpu,
    IrqHandler.genericTimerInterruptHandler.Runs 30#32 (enabledGic, twoListRegisters) gic ∧
      Recovers 33#32 30#32 ⟨gic, Function.update (fun _ => false) 30#32 true⟩ := by
  have h₀ : (timerSystem 33#32 30#32).Reachable ⟨(enabledGic, twoListRegisters), fun _ => false⟩ :=
    .init ⟨fun _ => isInactive_zero, rfl, rfl, by decide, fun _ => rfl⟩
  have hr : IrqHandler.genericTimerInterruptHandler.Runs 30#32 (enabledGic, twoListRegisters) _ := rfl
  have hover : HandsOver 30#32 (enabledGic, twoListRegisters) :=
    ⟨⟨by decide, by decide, by decide⟩, 0, rfl, rfl⟩
  exact ⟨_, hr, (timerIrq_recovers_iff (by decide) (by decide) h₀ rfl hr).mpr (.inl hover)⟩

end MiniVisor
