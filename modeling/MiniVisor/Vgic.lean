import MiniVisor.Checked

/-!
# List registers of the virtual interrupt controller

`vgic.rs` injects a virtual interrupt by writing one of the list registers `ichLr<n>_EL2`.
A register holds a status in bits 63:62 (inactive, pending, active, pending and active), the
virtual INTID in its low half, and the bits that say how its completion is reported.

`addVirtualInterrupt` is the scan of `add_virtual_interrupt` : the first register that is
inactive takes the new entry, and the first register that already holds the INTID becomes
pending again, whichever comes first. What the guest does to a register, `acknowledge` and
`endOfInterrupt`, is the processor's part.
-/

namespace MiniVisor

namespace Vgic

/-- The list registers of one CPU. -/
abbrev ListRegisters := ℕ → BitVec 64

def ichVtrEl2ListRegs : BitVec 64 := 0b11111
def ichLrnEl2Status : BitVec 64 := 0b11#64 <<< 62
def ichLrnEl2StatusInactive : BitVec 64 := 0b00#64 <<< 62
def ichLrnEl2StatusPending : BitVec 64 := 0b01#64 <<< 62
def ichLrnEl2StatusActive : BitVec 64 := 0b10#64 <<< 62
def ichLrnEl2Hw : BitVec 64 := 1#64 <<< 61
def ichLrnEl2Eoi : BitVec 64 := 1#64 <<< 41
def ichLrnEl2Vintid : BitVec 64 := (1#64 <<< 32) - 1#64

/-- The length of `GET_ICH_LRN_EL2`, the registers the code has accessors for. -/
def getIchLrnEl2Len : ℕ := 3

/-- The list registers the processor implements. -/
def numberOfLrn (ichVtrEl2 : BitVec 64) : ℕ :=
  (ichVtrEl2 &&& ichVtrEl2ListRegs).toNat + 1

/-- The list registers the code uses. -/
def supportedLrn (ichVtrEl2 : BitVec 64) : ℕ :=
  min (numberOfLrn ichVtrEl2) getIchLrnEl2Len

/-- The register is free for a new entry. -/
def isInactive (r : BitVec 64) : Bool :=
  r &&& ichLrnEl2Status == ichLrnEl2StatusInactive

/-- The virtual INTID of a register or an entry. -/
def vIntId (r : BitVec 64) : BitVec 64 :=
  r &&& ichLrnEl2Vintid

/-- `create_list_register_entry`. The arguments are `u32` in the source. -/
def createListRegisterEntry (intId group priority : BitVec 32) (physicalIntId : Option (BitVec 32)) :
    BitVec 64 :=
  let entry := ichLrnEl2StatusPending ||| (group.setWidth 64 <<< 60) |||
    (priority.setWidth 64 <<< 48) ||| intId.setWidth 64
  match physicalIntId with
  | some pIntId => entry ||| (ichLrnEl2Hw ||| (pIntId.setWidth 64 <<< 32))
  | none => entry ||| ichLrnEl2Eoi

/-- The register at which the scan of `add_virtual_interrupt` stops. -/
def slotFor (ichVtrEl2 : BitVec 64) (lr : ListRegisters) (entry : BitVec 64) : Option ℕ :=
  (List.range (supportedLrn ichVtrEl2)).find? fun i =>
    isInactive (lr i) || vIntId (lr i) == vIntId entry

/-- `add_virtual_interrupt`. With no register to stop at, the entry is dropped. -/
def addVirtualInterrupt (ichVtrEl2 : BitVec 64) (lr : ListRegisters) (entry : BitVec 64) :
    ListRegisters :=
  match slotFor ichVtrEl2 lr entry with
  | none => lr
  | some i =>
    if isInactive (lr i) then Function.update lr i entry
    else Function.update lr i (lr i ||| ichLrnEl2StatusPending)

/-- The guest acknowledges the interrupt of a register : pending becomes active. -/
def acknowledge (r : BitVec 64) : BitVec 64 :=
  if r &&& ichLrnEl2Status = ichLrnEl2StatusPending then
    (r &&& ~~~ichLrnEl2Status) ||| ichLrnEl2StatusActive
  else r

/-- The guest completes the interrupt of a register : active becomes inactive, pending and
active becomes pending. -/
def endOfInterrupt (r : BitVec 64) : BitVec 64 :=
  if r &&& ichLrnEl2Status = ichLrnEl2StatusActive then r &&& ~~~ichLrnEl2Status
  else if r &&& ichLrnEl2Status = ichLrnEl2Status then
    (r &&& ~~~ichLrnEl2Status) ||| ichLrnEl2StatusPending
  else r

/-- The register's bit of `ICH_EISR_EL2` : completed, and completion is reported by a
maintenance interrupt. -/
def eoiReported (r : BitVec 64) : Bool :=
  isInactive r && (r &&& ichLrnEl2Eoi != 0#64) && (r &&& ichLrnEl2Hw == 0#64)

/-- `eoiBits` is what `ICH_EISR_EL2` reads. -/
def IsEisr (ichVtrEl2 : BitVec 64) (lr : ListRegisters) (eoiBits : BitVec 64) : Prop :=
  ∀ i, eoiBits.getLsbD i = (decide (i < numberOfLrn ichVtrEl2) && eoiReported (lr i))

/-! ## Status and INTID under the operations -/

theorem isInactive_iff {r : BitVec 64} : isInactive r = true ↔ r &&& ichLrnEl2Status = 0#64 := by
  simp [isInactive, ichLrnEl2StatusInactive]

@[simp] theorem isInactive_zero : isInactive 0#64 = true := by decide

@[simp] theorem isInactive_or_pending (r : BitVec 64) :
    isInactive (r ||| ichLrnEl2StatusPending) = false := by
  rw [Bool.eq_false_iff, Ne, isInactive_iff, BitVec.and_comm, BitVec.and_or_distrib_left]
  intro h
  exact absurd (BitVec.or_eq_zero_iff.mp h).2 (by decide)

@[simp] theorem vIntId_or_pending (r : BitVec 64) :
    vIntId (r ||| ichLrnEl2StatusPending) = vIntId r := by
  unfold vIntId
  rw [BitVec.and_comm, BitVec.and_or_distrib_left, BitVec.and_comm _ r,
    show ichLrnEl2Vintid &&& ichLrnEl2StatusPending = 0#64 by decide, BitVec.or_zero]

/-- Changing the status keeps the INTID. -/
theorem vIntId_setStatus (r s : BitVec 64) (hs : s &&& ichLrnEl2Vintid = 0#64) :
    vIntId ((r &&& ~~~ichLrnEl2Status) ||| s) = vIntId r := by
  unfold vIntId
  have hm : ~~~ichLrnEl2Status &&& ichLrnEl2Vintid = ichLrnEl2Vintid := by decide
  rw [BitVec.and_comm, BitVec.and_or_distrib_left, BitVec.and_comm _ s, hs, BitVec.or_zero,
    BitVec.and_comm, BitVec.and_assoc, hm]

@[simp] theorem vIntId_acknowledge (r : BitVec 64) : vIntId (acknowledge r) = vIntId r := by
  unfold acknowledge
  split_ifs
  · exact vIntId_setStatus _ _ (by decide)
  · rfl

@[simp] theorem vIntId_endOfInterrupt (r : BitVec 64) : vIntId (endOfInterrupt r) = vIntId r := by
  unfold endOfInterrupt
  split_ifs
  · simpa using vIntId_setStatus r 0 (by decide)
  · exact vIntId_setStatus _ _ (by decide)
  · rfl

/-- A register with status bits `s` is inactive only if `s` is zero. -/
theorem isInactive_setStatus (r s : BitVec 64) :
    isInactive ((r &&& ~~~ichLrnEl2Status) ||| s) = isInactive s := by
  have hm : ~~~ichLrnEl2Status &&& ichLrnEl2Status = 0#64 := by decide
  have h : ((r &&& ~~~ichLrnEl2Status) ||| s) &&& ichLrnEl2Status =
      s &&& ichLrnEl2Status := by
    rw [BitVec.and_comm, BitVec.and_or_distrib_left, BitVec.and_comm _ s, BitVec.and_comm,
      BitVec.and_assoc, hm, BitVec.and_zero, BitVec.zero_or]
  simp only [isInactive, h]

/-- The guest does not free a register by acknowledging its interrupt. -/
theorem isInactive_acknowledge (r : BitVec 64) : isInactive (acknowledge r) = isInactive r := by
  unfold acknowledge
  split_ifs with h
  · rw [isInactive_setStatus, show isInactive r = false by
      rw [Bool.eq_false_iff, Ne, isInactive_iff, h]; decide]
    decide
  · rfl

/-- Nothing the guest does makes an inactive register hold an interrupt. -/
theorem isInactive_endOfInterrupt {r : BitVec 64} (h : isInactive r = true) :
    isInactive (endOfInterrupt r) = true := by
  have h0 := isInactive_iff.mp h
  unfold endOfInterrupt
  rw [if_neg (by rw [h0]; decide), if_neg (by rw [h0]; decide)]
  exact h

/-! ## The scan -/

theorem slotFor_eq_some {v : BitVec 64} {lr : ListRegisters} {e : BitVec 64} {i : ℕ} :
    slotFor v lr e = some i ↔
      i < supportedLrn v ∧ (isInactive (lr i) = true ∨ vIntId (lr i) = vIntId e) ∧
        ∀ j < i, isInactive (lr j) = false ∧ vIntId (lr j) ≠ vIntId e := by
  unfold slotFor
  rw [List.find?_range_eq_some]
  simp only [Bool.or_eq_true, beq_iff_eq, List.mem_range, Bool.not_or,
    Bool.and_eq_true, Bool.not_eq_true', beq_eq_false_iff_ne]
  tauto

theorem supportedLrn_le (v : BitVec 64) : supportedLrn v ≤ numberOfLrn v :=
  Nat.min_le_left _ _

end Vgic

end MiniVisor
