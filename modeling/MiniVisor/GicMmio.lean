import MiniVisor.Vgic

/-!
# The emulated interrupt controller

`mmio/gicv3.rs` emulates a GICv3 distributor and redistributor. The guest configures them
through memory-mapped registers, and `triggerInterrupt` makes an interrupt pending and hands
it to the CPU its routing register names : to the list registers of the current CPU, or to
the queue `toInjectInterrupt` that `injectInterruptHandler` empties on the other one.

Register arrays have the lengths of the source, and an index past the end is a trap, as are
the assertions. Interrupt numbers are natural numbers.
-/

namespace MiniVisor

open Machine Vgic

/-- An array of `n` registers of `w` bits. -/
structure Bank (n w : ℕ) where
  reg : ℕ → BitVec w

namespace Bank

variable {n w : ℕ}

/-- Every register holds `v`. -/
def fill (v : BitVec w) : Bank n w :=
  ⟨fun _ => v⟩

/-- The register at index `i` holds `v`. -/
def update (b : Bank n w) (i : ℕ) (v : BitVec w) : Bank n w :=
  ⟨Function.update b.reg i v⟩

/-- The register at index `i`. -/
def get (b : Bank n w) (i : ℕ) : Exec (BitVec w) :=
  if i < n then .ok (b.reg i) else .error .outOfBounds

/-- Assign the register at index `i`. -/
def set (b : Bank n w) (i : ℕ) (v : BitVec w) : Exec (Bank n w) :=
  if i < n then .ok (b.update i v) else .error .outOfBounds

/-- Assign the register at index `i` from its old value. -/
def modify (b : Bank n w) (i : ℕ) (f : BitVec w → BitVec w) : Exec (Bank n w) := do
  b.set i (f (← b.get i))

@[simp] theorem update_reg_self (b : Bank n w) (i : ℕ) (v : BitVec w) : (b.update i v).reg i = v :=
  Function.update_self ..

theorem update_reg_of_ne (b : Bank n w) {i j : ℕ} (h : j ≠ i) (v : BitVec w) :
    (b.update i v).reg j = b.reg j :=
  Function.update_of_ne h ..

theorem get_of_lt {b : Bank n w} {i : ℕ} (h : i < n) : b.get i = .ok (b.reg i) :=
  if_pos h

theorem get_of_le {b : Bank n w} {i : ℕ} (h : n ≤ i) : b.get i = .error .outOfBounds :=
  if_neg (by omega)

theorem set_of_lt {b : Bank n w} {i : ℕ} {v : BitVec w} (h : i < n) :
    b.set i v = .ok (b.update i v) :=
  if_pos h

theorem set_of_le {b : Bank n w} {i : ℕ} {v : BitVec w} (h : n ≤ i) :
    b.set i v = .error .outOfBounds :=
  if_neg (by omega)

theorem modify_of_lt {b : Bank n w} {i : ℕ} {f : BitVec w → BitVec w} (h : i < n) :
    b.modify i f = .ok (b.update i (f (b.reg i))) := by
  simp [modify, get_of_lt h, set_of_lt h]

end Bank

/-- The CPU the code runs on : its affinity, the number of its list registers and their
values, and the software-generated interrupts it has sent, newest first. -/
structure Cpu where
  mpidrEl1 : BitVec 64
  ichVtrEl2 : BitVec 64
  lr : ListRegisters
  iccSgi1rEl1 : List (BitVec 64)

/-- Affinity field `aff3` of an affinity value. -/
def aff3 (a : BitVec 64) : BitVec 64 :=
  (a &&& ((1#64 <<< 40) - 1#64)) >>> 32

def aff2 (a : BitVec 64) : BitVec 64 :=
  (a &&& ((1#64 <<< 24) - 1#64)) >>> 16

def aff1 (a : BitVec 64) : BitVec 64 :=
  (a &&& ((1#64 <<< 16) - 1#64)) >>> 8

def aff0 (a : BitVec 64) : BitVec 64 :=
  a &&& ((1#64 <<< 8) - 1#64)

/-- The two affinities name the same CPU. -/
def sameAffinity (a b : BitVec 64) : Prop :=
  aff3 a = aff3 b ∧ aff2 a = aff2 b ∧ aff1 a = aff1 b ∧ aff0 a = aff0 b

instance (a b : BitVec 64) : Decidable (sameAffinity a b) :=
  inferInstanceAs (Decidable (_ ∧ _))

def injectInterruptIntId : ℕ := 11

/-- The `ICC_SGI1R_EL1` value both controllers build for a remote CPU. -/
def iccSgi1r (a : BitVec 64) : BitVec 64 :=
  (aff3 a <<< 48) ||| (aff2 a <<< 32) ||| (BitVec.ofNat 64 injectInterruptIntId <<< 24) |||
    (aff1 a <<< 48) ||| (1#64 <<< aff0 a)

/-! ## Distributor -/

structure GicDistributorMmio where
  ctlr : BitVec 32
  group : Bank 32 32
  enable : Bank 32 32
  pending : Bank 32 32
  active : Bank 32 32
  priority : Bank 255 32
  configuration : Bank 64 32
  groupModifier : Bank 32 32
  router : Bank 1020 64
  toInjectInterrupt : List (BitVec 64)

def gicRevision : BitVec 64 := 3
def gicdCtlr : ℕ := 0x0000
def gicdTyper : ℕ := 0x0004
def gicdIgroupr0 : ℕ := 0x0080
def gicdIgroupr31 : ℕ := 0x00FC
def gicdIsenabler0 : ℕ := 0x0100
def gicdIsenabler31 : ℕ := 0x017C
def gicdIcenabler0 : ℕ := 0x0180
def gicdIcenabler31 : ℕ := 0x01FC
def gicdIspendr0 : ℕ := 0x0200
def gicdIspendr31 : ℕ := 0x027C
def gicdIcpendr0 : ℕ := 0x0280
def gicdIcpendr31 : ℕ := 0x02FC
def gicdIsactiver0 : ℕ := 0x0300
def gicdIsactiver31 : ℕ := 0x037C
def gicdIcactiver0 : ℕ := 0x0380
def gicdIcactiver31 : ℕ := 0x03FC
def gicdIpriorityr0 : ℕ := 0x0400
def gicdIpriorityr254 : ℕ := 0x07F8
def gicdIcfgr0 : ℕ := 0x0C00
def gicdIcfgr63 : ℕ := 0x0CFC
def gicdIgrpmodr0 : ℕ := 0x0D00
def gicdIgrpmodr31 : ℕ := 0x0F7C
def gicdIrouter0 : ℕ := 0x6100
def gicdIrouter1019 : ℕ := 0x7FD8
def gicdPidr2 : ℕ := 0xFFE8
def gicdCtlrAreS : BitVec 32 := 1#32 <<< 4
def gicdCtlrEnableGrp1ns : BitVec 32 := 1#32 <<< 1
def gicdTyperValue : BitVec 32 := (1#32 <<< 25) ||| 31#32

namespace GicDistributorMmio

def mmioSize : ℕ := 0x10000

def new : GicDistributorMmio where
  ctlr := 0
  group := .fill 0
  enable := .fill 0
  pending := .fill 0
  active := .fill 0
  priority := .fill 0
  configuration := .fill 0
  groupModifier := .fill 0
  router := .fill 0
  toInjectInterrupt := []

/-- The `width`-bit field of an interrupt in an array of 32-bit registers. -/
def field {n : ℕ} (b : Bank n 32) (width : ℕ) (mask : BitVec 32) (intId : ℕ) :
    Exec (BitVec 32) := do
  let r ← b.get (intId / (32 / width))
  pure ((r >>> (intId % (32 / width) * width)) &&& mask)

/-- Set or clear the bit of an interrupt in an array of 32-bit registers. -/
def changeBit (b : Bank 32 32) (intId : ℕ) (value : Bool) : Exec (Bank 32 32) :=
  b.modify (intId / 32) fun r =>
    if value then r ||| (1#32 <<< (intId % 32)) else r &&& ~~~(1#32 <<< (intId % 32))

variable (self : GicDistributorMmio)

def getGroup (intId : ℕ) : Exec (BitVec 32) :=
  field self.group 1 1#32 intId

def getEnable (intId : ℕ) : Exec Bool := do
  pure ((← field self.enable 1 1#32 intId) != 0#32)

def getPending (intId : ℕ) : Exec Bool := do
  pure ((← field self.pending 1 1#32 intId) != 0#32)

def changePendingStatus (intId : ℕ) (isPending : Bool) : Exec GicDistributorMmio := do
  pure { self with pending := ← changeBit self.pending intId isPending }

def changeActiveStatus (intId : ℕ) (isActive : Bool) : Exec GicDistributorMmio := do
  pure { self with active := ← changeBit self.active intId isActive }

def getPriority (intId : ℕ) : Exec (BitVec 32) :=
  field self.priority 8 0xFF#32 intId

def getGroupModifier (intId : ℕ) : Exec (BitVec 32) :=
  field self.groupModifier 1 1#32 intId

def getRouter (intId : ℕ) : Exec (BitVec 64) :=
  self.router.get intId

/-- `trigger_interrupt`, on the CPU `cpu`. -/
def triggerInterrupt (cpu : Cpu) (intId : ℕ) (physicalIntId : Option (BitVec 32)) :
    Exec (GicDistributorMmio × Cpu) := do
  if self.ctlr &&& gicdCtlrEnableGrp1ns = 0#32 then
    return (self, cpu)
  let self ← self.changePendingStatus intId true
  if !(← self.getEnable intId) then
    return (self, cpu)
  if (← self.getGroupModifier intId) = 1#32 then
    return (self, cpu)
  let group ← self.getGroup intId
  let priority ← self.getPriority intId
  let router ← self.getRouter intId
  if self.ctlr &&& gicdCtlrAreS = 0#32 then
    return (self, cpu)
  let listEntry := createListRegisterEntry (BitVec.ofNat 32 intId) group priority physicalIntId
  if sameAffinity router cpu.mpidrEl1 then
    return (self, { cpu with lr := addVirtualInterrupt cpu.ichVtrEl2 cpu.lr listEntry })
  else
    let self := { self with toInjectInterrupt := self.toInjectInterrupt ++ [listEntry] }
    assert (aff0 router < 16#64)
    return (self, { cpu with iccSgi1rEl1 := iccSgi1r router :: cpu.iccSgi1rEl1 })

/-- The body of the bit scans of `write` : interrupt `intId` is triggered if its bit, the
lowest of `value`, is set and `test` holds of it. -/
def scanBit (test : GicDistributorMmio → ℕ → Exec Bool) (cpu : Cpu) (intId : ℕ)
    (value : BitVec 64) : Exec (GicDistributorMmio × Cpu) :=
  if value &&& 1#64 = 0#64 then .ok (self, cpu)
  else do
    let fire ← test self intId
    if fire then self.triggerInterrupt cpu intId none else .ok (self, cpu)

/-- One iteration of the bit scans of `write`. -/
def scanStep (test : GicDistributorMmio → ℕ → Exec Bool) :
    (ℕ × BitVec 64) × GicDistributorMmio × Cpu →
      Exec (Iter ((ℕ × BitVec 64) × GicDistributorMmio × Cpu) (GicDistributorMmio × Cpu))
  | ((intId, value), self, cpu) =>
    if value = 0#64 then .ok (.done (self, cpu))
    else do
      let s ← scanBit self test cpu intId value
      pure (.next ((intId + 1, value >>> 1), s))

/-- The bit scans of `write`. A `u64` has no set bit left after 64 shifts. -/
def scan (test : GicDistributorMmio → ℕ → Exec Bool) (cpu : Cpu) (intId : ℕ) (value : BitVec 64) :
    Exec (GicDistributorMmio × Cpu) :=
  loop (scanStep test) 65 ((intId, value), self, cpu)

/-- `offset` lies in the window `lo..=hi`. -/
abbrev inWindow (lo hi offset : ℕ) : Prop :=
  lo ≤ offset ∧ offset ≤ hi

/-- `<GicDistributorMmio as MmioHandler>::read`. -/
def read (offset accessWidth : ℕ) : Exec (BitVec 64) := do
  let reg {n : ℕ} (b : Bank n 32) (base : ℕ) : Exec (BitVec 64) := do
    pure ((← b.get ((offset - base) / 4)).setWidth 64)
  if offset = gicdCtlr ∧ accessWidth = 32 then
    pure (self.ctlr.setWidth 64)
  else if offset = gicdTyper ∧ accessWidth = 32 then
    pure (gicdTyperValue.setWidth 64)
  else if inWindow gicdIgroupr0 gicdIgroupr31 offset ∧ accessWidth = 32 then
    reg self.group gicdIgroupr0
  else if inWindow gicdIsenabler0 gicdIsenabler31 offset ∧ accessWidth = 32 then
    reg self.enable gicdIsenabler0
  else if inWindow gicdIcenabler0 gicdIcenabler31 offset ∧ accessWidth = 32 then
    reg self.enable gicdIcenabler0
  else if inWindow gicdIspendr0 gicdIspendr31 offset ∧ accessWidth = 32 then
    reg self.pending gicdIspendr0
  else if inWindow gicdIcpendr0 gicdIcpendr31 offset ∧ accessWidth = 32 then
    reg self.pending gicdIcpendr0
  else if inWindow gicdIsactiver0 gicdIsactiver31 offset ∧ accessWidth = 32 then
    reg self.active gicdIsactiver0
  else if inWindow gicdIcactiver0 gicdIcactiver31 offset ∧ accessWidth = 32 then
    reg self.active gicdIcactiver0
  else if gicdIpriorityr0 ≤ offset ∧ offset < gicdIpriorityr254 + 4 then
    let byteOffset := (offset - gicdIpriorityr0) - (offset - gicdIpriorityr0) / 4 * 4
    if accessWidth = 8 then
      let result ← reg self.priority gicdIpriorityr0
      pure ((result >>> (byteOffset * 8)) &&& 0xff#64)
    else if byteOffset = 0 ∧ accessWidth = 32 then
      reg self.priority gicdIpriorityr0
    else
      pure 0#64
  else if inWindow gicdIcfgr0 gicdIcfgr63 offset ∧ accessWidth = 32 then
    reg self.configuration gicdIcfgr0
  else if inWindow gicdIgrpmodr0 gicdIgrpmodr31 offset ∧ accessWidth = 32 then
    reg self.groupModifier gicdIgrpmodr0
  else if inWindow gicdIrouter0 gicdIrouter1019 offset ∧ accessWidth = 64 then
    self.router.get ((offset - gicdIrouter0) / 8)
  else if offset = gicdPidr2 ∧ accessWidth = 32 then
    pure (gicRevision <<< 4)
  else
    pure 0#64

/-- `<GicDistributorMmio as MmioHandler>::write`, on the CPU `cpu`. -/
def write (cpu : Cpu) (offset accessWidth : ℕ) (value : BitVec 64) :
    Exec (GicDistributorMmio × Cpu) := do
  let v : BitVec 32 := value.setWidth 32
  if offset = gicdCtlr ∧ accessWidth = 32 then
    pure ({ self with ctlr := v }, cpu)
  else if inWindow gicdIgroupr0 gicdIgroupr31 offset ∧ accessWidth = 32 then
    let group ← self.group.set ((offset - gicdIgroupr0) / 4) v
    pure ({ self with group }, cpu)
  else if inWindow gicdIsenabler0 gicdIsenabler31 offset ∧ accessWidth = 32 then
    let registerOffset := (offset - gicdIsenabler0) / 4
    let enable ← self.enable.modify registerOffset (· ||| v)
    scan { self with enable } getPending cpu (registerOffset * 32) value
  else if inWindow gicdIcenabler0 gicdIcenabler31 offset ∧ accessWidth = 32 then
    let enable ← self.enable.modify ((offset - gicdIcenabler0) / 4) (· &&& ~~~v)
    pure ({ self with enable }, cpu)
  else if inWindow gicdIspendr0 gicdIspendr31 offset ∧ accessWidth = 32 then
    let registerOffset := (offset - gicdIspendr0) / 4
    let pending ← self.pending.modify registerOffset (· ||| v)
    scan { self with pending } getEnable cpu (registerOffset * 4 * 8) value
  else if inWindow gicdIcpendr0 gicdIcpendr31 offset ∧ accessWidth = 32 then
    let pending ← self.pending.modify ((offset - gicdIcpendr0) / 4) (· &&& ~~~v)
    pure ({ self with pending }, cpu)
  else if inWindow gicdIsactiver0 gicdIsactiver31 offset ∧ accessWidth = 32 then
    let active ← self.active.modify ((offset - gicdIsactiver0) / 4) (· ||| v)
    pure ({ self with active }, cpu)
  else if inWindow gicdIcactiver0 gicdIcactiver31 offset ∧ accessWidth = 32 then
    let active ← self.active.modify ((offset - gicdIcactiver0) / 4) (· &&& ~~~v)
    pure ({ self with active }, cpu)
  else if gicdIpriorityr0 ≤ offset ∧ offset < gicdIpriorityr254 + 4 then
    let registerOffset := (offset - gicdIpriorityr0) / 4
    let byteOffset := (offset - gicdIpriorityr0) - registerOffset * 4
    let bitOffset := byteOffset * 8
    if accessWidth = 8 then
      let priority ← self.priority.modify registerOffset fun r =>
        (r &&& ~~~(0xFF#32 <<< bitOffset)) ||| (value <<< bitOffset).setWidth 32
      pure ({ self with priority }, cpu)
    else if byteOffset = 0 ∧ accessWidth = 32 then
      let priority ← self.priority.set registerOffset v
      pure ({ self with priority }, cpu)
    else
      pure (self, cpu)
  else if inWindow gicdIcfgr0 gicdIcfgr63 offset ∧ accessWidth = 32 then
    let configuration ← self.configuration.set ((offset - gicdIcfgr0) / 4) v
    pure ({ self with configuration }, cpu)
  else if inWindow gicdIgrpmodr0 gicdIgrpmodr31 offset ∧ accessWidth = 32 then
    let groupModifier ← self.groupModifier.set ((offset - gicdIgrpmodr0) / 4) v
    pure ({ self with groupModifier }, cpu)
  else if inWindow gicdIrouter0 gicdIrouter1019 offset ∧ accessWidth = 64 then
    let router ← self.router.set ((offset - gicdIrouter0) / 8) value
    pure ({ self with router }, cpu)
  else
    pure (self, cpu)

end GicDistributorMmio

/-! ## Redistributor -/

structure GicRedistributorMmio where
  affinity : BitVec 64
  ctlr : BitVec 32
  waker : BitVec 32
  group : BitVec 32
  enable : BitVec 32
  pending : BitVec 32
  active : BitVec 32
  priority : Bank 8 32
  configuration : Bank 2 32
  groupModifier : BitVec 32
  toInjectInterrupt : List (BitVec 64)

def gicrCtlr : ℕ := 0x0000
def gicrTyper : ℕ := 0x0008
def gicrWaker : ℕ := 0x0014
def gicrPidr2 : ℕ := 0xFFE8
def gicrVlpiBase : ℕ := 0x10000
def gicrIgroupr0 : ℕ := gicrVlpiBase + 0x0080
def gicrIsenabler0 : ℕ := gicrVlpiBase + 0x0100
def gicrIcenabler0 : ℕ := gicrVlpiBase + 0x0180
def gicrIspendr0 : ℕ := gicrVlpiBase + 0x0200
def gicrIcpendr0 : ℕ := gicrVlpiBase + 0x0280
def gicrIsactiver0 : ℕ := gicrVlpiBase + 0x0300
def gicrIcactiver0 : ℕ := gicrVlpiBase + 0x0380
def gicrIpriorityr0 : ℕ := gicrVlpiBase + 0x0400
def gicrIpriorityr7 : ℕ := gicrVlpiBase + 0x041C
def gicrIcfgr0 : ℕ := gicrVlpiBase + 0x0C00
def gicrIcfgr1 : ℕ := gicrVlpiBase + 0x0C04
def gicrIgrpmodr0 : ℕ := gicrVlpiBase + 0x0D00
def gicrTyperLast : BitVec 32 := 1#32 <<< 4
def gicrWakerChildrenAsleep : BitVec 32 := 1#32 <<< 2
def gicrWakerProcessorSleep : BitVec 32 := 1#32 <<< 1

/-- `asm::mpidr_to_affinity`. -/
def mpidrToAffinity (mpidr : BitVec 64) : BitVec 64 :=
  mpidr &&& ~~~((1#64 <<< 31) ||| (1#64 <<< 30))

namespace GicRedistributorMmio

def new (mpidrEl1 : BitVec 64) : GicRedistributorMmio where
  affinity := mpidrToAffinity mpidrEl1
  ctlr := 0
  waker := gicrWakerChildrenAsleep
  group := 0
  enable := 0
  pending := 0
  active := 0
  priority := .fill 0
  configuration := .fill 0
  groupModifier := 0
  toInjectInterrupt := []

variable (self : GicRedistributorMmio)

def generateTyper : BitVec 64 :=
  gicrTyperLast.setWidth 64 ||| (aff0 self.affinity <<< 32) ||| (aff1 self.affinity <<< 40) |||
    (aff2 self.affinity <<< 48) ||| (aff3 self.affinity <<< 56)

/-- Set or clear the bit of an interrupt in a 32-bit register. A shift by 32 or more traps. -/
def changeBit (r : BitVec 32) (intId : ℕ) (value : Bool) : Exec (BitVec 32) :=
  if intId < 32 then
    .ok (if value then r ||| (1#32 <<< intId) else r &&& ~~~(1#32 <<< intId))
  else .error .overflow

def changePendingStatus (intId : ℕ) (isPending : Bool) : Exec GicRedistributorMmio := do
  pure { self with pending := ← changeBit self.pending intId isPending }

def changeActiveStatus (intId : ℕ) (isActive : Bool) : Exec GicRedistributorMmio := do
  pure { self with active := ← changeBit self.active intId isActive }

/-- The bit of an interrupt in a 32-bit register. -/
def field (r : BitVec 32) (intId : ℕ) : Exec (BitVec 32) :=
  if intId < 32 then .ok ((r >>> intId) &&& 1#32) else .error .overflow

def getGroup (intId : ℕ) : Exec (BitVec 32) :=
  field self.group intId

def getEnable (intId : ℕ) : Exec Bool := do
  pure ((← field self.enable intId) != 0#32)

def getPending (intId : ℕ) : Exec Bool := do
  pure ((← field self.pending intId) != 0#32)

def getPriority (intId : ℕ) : Exec (BitVec 32) :=
  GicDistributorMmio.field self.priority 8 0xFF#32 intId

def getGroupModifier (intId : ℕ) : Exec (BitVec 32) :=
  field self.groupModifier intId

/-- `trigger_interrupt`, on the CPU `cpu`. -/
def triggerInterrupt (cpu : Cpu) (intId : ℕ) (physicalIntId : Option (BitVec 32)) :
    Exec (GicRedistributorMmio × Cpu) := do
  if self.waker &&& gicrWakerChildrenAsleep ≠ 0#32 then
    return (self, cpu)
  let self ← self.changePendingStatus intId true
  if !(← self.getEnable intId) then
    return (self, cpu)
  if (← self.getGroupModifier intId) = 1#32 then
    return (self, cpu)
  let group ← self.getGroup intId
  let priority ← self.getPriority intId
  let listEntry := createListRegisterEntry (BitVec.ofNat 32 intId) group priority physicalIntId
  if self.affinity = mpidrToAffinity cpu.mpidrEl1 then
    return (self, { cpu with lr := addVirtualInterrupt cpu.ichVtrEl2 cpu.lr listEntry })
  else
    let self := { self with toInjectInterrupt := self.toInjectInterrupt ++ [listEntry] }
    assert (aff0 self.affinity < 16#64)
    return (self, { cpu with iccSgi1rEl1 := iccSgi1r self.affinity :: cpu.iccSgi1rEl1 })

/-- The body of the bit scans of `write`. -/
def scanBit (test : GicRedistributorMmio → ℕ → Exec Bool) (cpu : Cpu) (intId : ℕ)
    (value : BitVec 64) : Exec (GicRedistributorMmio × Cpu) :=
  if value &&& 1#64 = 0#64 then .ok (self, cpu)
  else do
    let fire ← test self intId
    if fire then self.triggerInterrupt cpu intId none else .ok (self, cpu)

/-- One iteration of the bit scans of `write`. -/
def scanStep (test : GicRedistributorMmio → ℕ → Exec Bool) :
    (ℕ × BitVec 64) × GicRedistributorMmio × Cpu →
      Exec (Iter ((ℕ × BitVec 64) × GicRedistributorMmio × Cpu) (GicRedistributorMmio × Cpu))
  | ((intId, value), self, cpu) =>
    if 32 ≤ intId ∨ value = 0#64 then .ok (.done (self, cpu))
    else do
      let s ← scanBit self test cpu intId value
      pure (.next ((intId + 1, value >>> 1), s))

/-- The bit scans of `write`, over the interrupts below 32. -/
def scan (test : GicRedistributorMmio → ℕ → Exec Bool) (cpu : Cpu) (value : BitVec 64) :
    Exec (GicRedistributorMmio × Cpu) :=
  loop (scanStep test) 33 ((0, value), self, cpu)

/-- `<GicRedistributorMmio as MmioHandler>::read`. -/
def read (offset accessWidth : ℕ) : Exec (BitVec 64) := do
  if offset = gicrCtlr ∧ accessWidth = 32 then
    pure (self.ctlr.setWidth 64)
  else if offset = gicrTyper ∧ (accessWidth = 32 ∨ accessWidth = 64) then
    pure self.generateTyper
  else if offset = gicrTyper + 4 ∧ accessWidth = 32 then
    pure (self.generateTyper >>> 32)
  else if offset = gicrWaker ∧ accessWidth = 32 then
    pure (self.waker.setWidth 64)
  else if offset = gicrPidr2 ∧ accessWidth = 32 then
    pure (gicRevision <<< 4)
  else if offset = gicrIgroupr0 ∧ accessWidth = 32 then
    pure (self.group.setWidth 64)
  else if (offset = gicrIsenabler0 ∨ offset = gicrIcenabler0) ∧ accessWidth = 32 then
    pure (self.enable.setWidth 64)
  else if (offset = gicrIspendr0 ∨ offset = gicrIcpendr0) ∧ accessWidth = 32 then
    pure (self.pending.setWidth 64)
  else if (offset = gicrIsactiver0 ∨ offset = gicrIcactiver0) ∧ accessWidth = 32 then
    pure (self.active.setWidth 64)
  else if GicDistributorMmio.inWindow gicrIpriorityr0 gicrIpriorityr7 offset ∧ accessWidth = 32 then
    pure ((← self.priority.get ((offset - gicrIpriorityr0) / 4)).setWidth 64)
  else if GicDistributorMmio.inWindow gicrIcfgr0 gicrIcfgr1 offset ∧ accessWidth = 32 then
    pure ((← self.configuration.get ((offset - gicrIcfgr0) / 4)).setWidth 64)
  else if offset = gicrIgrpmodr0 ∧ accessWidth = 32 then
    pure (self.groupModifier.setWidth 64)
  else
    pure 0#64

/-- The comparisons of `write` with the offsets from `GICR_WAKER` on. -/
def writeRegister (cpu : Cpu) (offset accessWidth : ℕ) (value : BitVec 64) :
    Exec (GicRedistributorMmio × Cpu) := do
  let v : BitVec 32 := value.setWidth 32
  if offset = gicrWaker ∧ accessWidth = 32 then
    if v &&& gicrWakerProcessorSleep = 0#32 then
      pure ({ self with waker := 0 }, cpu)
    else
      pure ({ self with waker := gicrWakerChildrenAsleep ||| gicrWakerProcessorSleep }, cpu)
  else if offset = gicrIgroupr0 ∧ accessWidth = 32 then
    pure ({ self with group := v }, cpu)
  else if offset = gicrIsenabler0 ∧ accessWidth = 32 then
    scan { self with enable := self.enable ||| v } getPending cpu value
  else if offset = gicrIcenabler0 ∧ accessWidth = 32 then
    pure ({ self with enable := self.enable &&& ~~~v }, cpu)
  else if offset = gicrIspendr0 ∧ accessWidth = 32 then
    scan { self with pending := self.pending ||| v } getEnable cpu value
  else if offset = gicrIcpendr0 ∧ accessWidth = 32 then
    pure ({ self with pending := self.pending &&& ~~~v }, cpu)
  else if offset = gicrIsactiver0 ∧ accessWidth = 32 then
    pure ({ self with active := self.active ||| v }, cpu)
  else if offset = gicrIcactiver0 ∧ accessWidth = 32 then
    pure ({ self with active := self.active &&& ~~~v }, cpu)
  else if gicrIpriorityr0 ≤ offset ∧ offset < gicrIpriorityr7 + 4 then
    let registerOffset := (offset - gicrIpriorityr0) / 4
    let byteOffset := (offset - gicrIpriorityr0) - registerOffset * 4
    let bitOffset := byteOffset * 8
    if accessWidth = 8 then
      let priority ← self.priority.modify registerOffset fun r =>
        (r &&& ~~~(0xFF#32 <<< bitOffset)) ||| (value <<< bitOffset).setWidth 32
      pure ({ self with priority }, cpu)
    else if byteOffset = 0 ∧ accessWidth = 32 then
      let priority ← self.priority.set registerOffset v
      pure ({ self with priority }, cpu)
    else
      pure (self, cpu)
  else if GicDistributorMmio.inWindow gicrIcfgr0 gicrIcfgr1 offset ∧ accessWidth = 32 then
    let configuration ← self.configuration.set ((offset - gicrIcfgr0) / 4) v
    pure ({ self with configuration }, cpu)
  else if offset = gicrIgrpmodr0 ∧ accessWidth = 32 then
    pure ({ self with groupModifier := v }, cpu)
  else
    pure (self, cpu)

/-- `<GicRedistributorMmio as MmioHandler>::write`, on the CPU `cpu`. A write to `GICR_CTLR` goes on to the
other comparisons. -/
def write (cpu : Cpu) (offset accessWidth : ℕ) (value : BitVec 64) :
    Exec (GicRedistributorMmio × Cpu) :=
  if offset = gicrCtlr ∧ accessWidth = 32 then
    writeRegister { self with ctlr := value.setWidth 32 } cpu offset accessWidth value
  else self.writeRegister cpu offset accessWidth value

end GicRedistributorMmio

/-! ## Interrupt handlers of the hypervisor -/

/-- The interrupt controller of one VM. -/
structure Gic where
  distributor : GicDistributorMmio
  redistributor : GicRedistributorMmio

/-- Hand every entry of a queue to the list registers, in order. -/
def injectAll (ichVtrEl2 : BitVec 64) (lr : ListRegisters) (queue : List (BitVec 64)) :
    ListRegisters :=
  queue.foldl (addVirtualInterrupt ichVtrEl2) lr

/-- `inject_interrupt_handler`. -/
def injectInterruptHandler (gic : Gic) (cpu : Cpu) : Gic × Cpu :=
  let lr := injectAll cpu.ichVtrEl2 cpu.lr gic.distributor.toInjectInterrupt
  let lr := injectAll cpu.ichVtrEl2 lr gic.redistributor.toInjectInterrupt
  ({ distributor := { gic.distributor with toInjectInterrupt := [] },
     redistributor := { gic.redistributor with toInjectInterrupt := [] } }, { cpu with lr })

/-- What `maintenance_interrupt_handler` does for a list register whose bit of
`ICH_EISR_EL2` is set : its interrupt is neither pending nor active any more, and the
register is cleared. -/
def completeInterrupt (gic : Gic) (lr : ListRegisters) (i : ℕ) : Exec (Gic × ListRegisters) := do
  let intId := (vIntId (lr i)).toNat
  let lr := Function.update lr i 0#64
  if 32 ≤ intId then
    let distributor ← gic.distributor.changePendingStatus intId false
    let distributor ← distributor.changeActiveStatus intId false
    pure ({ gic with distributor }, lr)
  else
    let redistributor ← gic.redistributor.changePendingStatus intId false
    let redistributor ← redistributor.changeActiveStatus intId false
    pure ({ gic with redistributor }, lr)

/-- The body of the loop of `maintenance_interrupt_handler`, at register `i` with its bit of
`ICH_EISR_EL2` the lowest of `eoiBits`. -/
def maintainRegister (eoiBits : BitVec 64) (i : ℕ) (s : Gic × ListRegisters) :
    Exec (Gic × ListRegisters) :=
  if eoiBits &&& 1#64 ≠ 0#64 then completeInterrupt s.1 s.2 i else .ok s

/-- The loop of `maintenance_interrupt_handler` over the registers `i`, `i + 1`, …, `n` of
them left. -/
def maintenanceFrom (eoiBits : BitVec 64) : ℕ → ℕ → Gic × ListRegisters → Exec (Gic × ListRegisters)
  | 0, _, s => .ok s
  | n + 1, i, s => do
    let s ← maintainRegister eoiBits i s
    maintenanceFrom (eoiBits >>> 1) n (i + 1) s

/-- `maintenance_interrupt_handler`, with `eoiBits` read from `ICH_EISR_EL2`. -/
def maintenanceInterruptHandler (gic : Gic) (cpu : Cpu) (eoiBits : BitVec 64) :
    Exec (Gic × Cpu) := do
  let (gic, lr) ← maintenanceFrom eoiBits (supportedLrn cpu.ichVtrEl2) 0 (gic, cpu.lr)
  pure (gic, { cpu with lr })

end MiniVisor
