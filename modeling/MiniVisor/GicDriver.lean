import MiniVisor.GicSafety

/-!
# The driver of the interrupt controller on the emulated one

`drivers/gicv3.rs` sets one field of one interrupt at a time. Here its register accesses are served by the
emulated distributor. A field that is read, changed and written back (`setField`) is right for all
registers that hold what is written to them. The pending bits do not : `GICD_ICPENDR` clears all bits that
are written, so `set_pending(n, false)` clears every other pending interrupt of the register.
-/

namespace MiniVisor

open Machine Vgic

/-! ## The driver -/

namespace GicDistributor

def gicdIgroupr : ℕ := 0x0080
def gicdIsenabler : ℕ := 0x0100
def gicdIcenabler : ℕ := 0x0180
def gicdIspendr : ℕ := 0x0200
def gicdIcpendr : ℕ := 0x0280
def gicdIpriorityr : ℕ := 0x0400
def gicdIcfgr : ℕ := 0x0C00
def gicdIgrpmodr : ℕ := 0x0D00
def gicdIrouter : ℕ := 0x6100

/-- `GicGroup`. -/
inductive GicGroup
  | nonSecureGroup1

/-- The emulated distributor behind the registers, and the CPU it runs on. -/
abbrev Device := GicDistributorMmio × Cpu

/-- `read_register`. -/
def readRegister (s : Device) (register : ℕ) : Exec (BitVec 32) := do
  pure ((← s.1.read register 32).setWidth 32)

/-- `write_register`. -/
def writeRegister (s : Device) (register : ℕ) (data : BitVec 32) : Exec Device :=
  s.1.write s.2 register 32 (data.setWidth 64)

/-- `data` in place of the bits of `mask`, both shifted by `offset`. -/
def replaceField (old mask : BitVec 32) (offset : ℕ) (data : BitVec 32) : BitVec 32 :=
  (old &&& ~~~(mask <<< offset)) ||| (data <<< offset)

/-- Replace a field of a register. -/
def setField (s : Device) (register : ℕ) (mask : BitVec 32) (offset : ℕ) (data : BitVec 32) :
    Exec Device := do
  let old ← readRegister s register
  writeRegister s register (replaceField old mask offset data)

/-- `set_priority`. -/
def setPriority (intId : ℕ) (priority : BitVec 8) (s : Device) : Exec Device :=
  let registerIndex := (intId >>> 2) * 4
  let registerOffset := (intId &&& 0b11) <<< 3
  setField s (gicdIpriorityr + registerIndex) 0xFF#32 registerOffset (priority.setWidth 32)

/-- `set_group`. -/
def setGroup (intId : ℕ) (group : GicGroup) (s : Device) : Exec Device := do
  let registerIndex := (intId / 32) * 4
  let registerOffset := intId &&& (32 - 1)
  let data := match group with
    | .nonSecureGroup1 => 1#32
  let s ← setField s (gicdIgroupr + registerIndex) 1#32 registerOffset data
  let data := match group with
    | .nonSecureGroup1 => 0#32
  setField s (gicdIgrpmodr + registerIndex) 1#32 registerOffset data

/-- `set_enable`. -/
def setEnable (intId : ℕ) (enable : Bool) (s : Device) : Exec Device :=
  let registerIndex := (intId / 32) * 4
  let registerOffset := intId &&& (32 - 1)
  let register := if enable then gicdIsenabler else gicdIcenabler
  writeRegister s (register + registerIndex) (1#32 <<< registerOffset)

/-- `set_pending`. -/
def setPending (intId : ℕ) (pending : Bool) (s : Device) : Exec Device := do
  let registerIndex := (intId / 32) * 4
  let registerOffset := intId &&& (32 - 1)
  let register := if pending then gicdIspendr else gicdIcpendr
  let old ← readRegister s (register + registerIndex)
  writeRegister s (register + registerIndex) (old ||| (1#32 <<< registerOffset))

/-- `set_trigger_mode`. -/
def setTriggerMode (intId : ℕ) (isLevelTrigger : Bool) (s : Device) : Exec Device :=
  let registerIndex := (intId / (32 / 2)) * 4
  let registerOffset := (intId &&& (32 / 2 - 1)) * 2
  setField s (gicdIcfgr + registerIndex) 0x03#32 registerOffset
    ((if isLevelTrigger then 0#32 else 1#32) <<< 1)

/-- `set_routing` with `is_routing_mode` false. -/
def setRouting (intId : ℕ) (mpidr : BitVec 64) (s : Device) : Exec Device :=
  s.1.write s.2 (gicdIrouter + intId * 8) 64 (mpidrToAffinity mpidr)

end GicDistributor

/-! ## Register windows -/

namespace GicDistributorMmio

variable {d : GicDistributorMmio} {cpu : Cpu} {i : ℕ} {v : BitVec 32}

theorem not_window_of_lt {lo hi offset : ℕ} (h : hi < offset) : ¬(inWindow lo hi offset ∧ 32 = 32) :=
  fun hw => absurd hw.1.2 (not_le.mpr h)

theorem not_register_of_lt {register offset : ℕ} (h : register < offset) :
    ¬(offset = register ∧ 32 = 32) :=
  fun hw => absurd hw.1 h.ne'

/-- The `i`-th register of a window. -/
theorem window_of_lt {lo hi : ℕ} (n : ℕ) (hn : lo + (n - 1) * 4 ≤ hi) (hi' : i < n) :
    inWindow lo hi (lo + i * 4) ∧ 32 = 32 :=
  ⟨⟨Nat.le_add_right _ _, by omega⟩, rfl⟩

theorem index_add (lo i : ℕ) : (lo + i * 4 - lo) / 4 = i := by
  rw [Nat.add_sub_cancel_left, Nat.mul_div_cancel _ (by decide)]

theorem read_group (hi : i < 32) :
    d.read (gicdIgroupr0 + i * 4) 32 = .ok ((d.group.reg i).setWidth 64) := by
  have lt {c : ℕ} (h : c < gicdIgroupr0) : c < gicdIgroupr0 + i * 4 := Nat.lt_add_right _ h
  unfold read
  dsimp only
  rw [if_neg (not_register_of_lt (lt (by decide))), if_neg (not_register_of_lt (lt (by decide))),
    if_pos (window_of_lt 32 (by decide) hi), index_add, Bank.get_of_lt hi]
  rfl

theorem read_ispendr (hi : i < 32) :
    d.read (gicdIspendr0 + i * 4) 32 = .ok ((d.pending.reg i).setWidth 64) := by
  have lt {c : ℕ} (h : c < gicdIspendr0) : c < gicdIspendr0 + i * 4 := Nat.lt_add_right _ h
  unfold read
  dsimp only
  rw [if_neg (not_register_of_lt (lt (by decide))), if_neg (not_register_of_lt (lt (by decide))),
    if_neg (not_window_of_lt (lt (by decide))), if_neg (not_window_of_lt (lt (by decide))),
    if_neg (not_window_of_lt (lt (by decide))), if_pos (window_of_lt 32 (by decide) hi), index_add,
    Bank.get_of_lt hi]
  rfl

theorem read_icpendr (hi : i < 32) :
    d.read (gicdIcpendr0 + i * 4) 32 = .ok ((d.pending.reg i).setWidth 64) := by
  have lt {c : ℕ} (h : c < gicdIcpendr0) : c < gicdIcpendr0 + i * 4 := Nat.lt_add_right _ h
  unfold read
  dsimp only
  rw [if_neg (not_register_of_lt (lt (by decide))), if_neg (not_register_of_lt (lt (by decide))),
    if_neg (not_window_of_lt (lt (by decide))), if_neg (not_window_of_lt (lt (by decide))),
    if_neg (not_window_of_lt (lt (by decide))), if_neg (not_window_of_lt (lt (by decide))),
    if_pos (window_of_lt 32 (by decide) hi), index_add, Bank.get_of_lt hi]
  rfl

/-- The windows before the priorities. -/
theorem priority_windows (offset : ℕ) (h : gicdIpriorityr0 ≤ offset) :
    gicdCtlr < offset ∧ gicdTyper < offset ∧ gicdIgroupr31 < offset ∧ gicdIsenabler31 < offset ∧
      gicdIcenabler31 < offset ∧ gicdIspendr31 < offset ∧ gicdIcpendr31 < offset ∧
      gicdIsactiver31 < offset ∧ gicdIcactiver31 < offset :=
  ⟨lt_of_lt_of_le (by decide) h, lt_of_lt_of_le (by decide) h, lt_of_lt_of_le (by decide) h,
    lt_of_lt_of_le (by decide) h, lt_of_lt_of_le (by decide) h, lt_of_lt_of_le (by decide) h,
    lt_of_lt_of_le (by decide) h, lt_of_lt_of_le (by decide) h, lt_of_lt_of_le (by decide) h⟩

theorem priority_of_lt (hi : i < 255) : gicdIpriorityr0 ≤ gicdIpriorityr0 + i * 4 ∧
    gicdIpriorityr0 + i * 4 < gicdIpriorityr254 + 4 := by
  simp only [gicdIpriorityr0, gicdIpriorityr254]
  omega

theorem read_priority (hi : i < 255) :
    d.read (gicdIpriorityr0 + i * 4) 32 = .ok ((d.priority.reg i).setWidth 64) := by
  obtain ⟨h₁, h₂, h₃, h₄, h₅, h₆, h₇, h₈, h₉⟩ := priority_windows _ (priority_of_lt hi).1
  unfold read
  dsimp only
  rw [if_neg (not_register_of_lt h₁), if_neg (not_register_of_lt h₂),
    if_neg (not_window_of_lt h₃), if_neg (not_window_of_lt h₄), if_neg (not_window_of_lt h₅),
    if_neg (not_window_of_lt h₆), if_neg (not_window_of_lt h₇), if_neg (not_window_of_lt h₈),
    if_neg (not_window_of_lt h₉), if_pos (priority_of_lt hi), index_add, Nat.add_sub_cancel_left,
    Nat.sub_self, if_neg (by decide), if_pos ⟨rfl, rfl⟩, Bank.get_of_lt hi]
  rfl

theorem not_priority_of_le {offset : ℕ} (h : gicdIpriorityr254 + 4 ≤ offset) :
    ¬(gicdIpriorityr0 ≤ offset ∧ offset < gicdIpriorityr254 + 4) :=
  fun hw => absurd hw.2 (not_lt.mpr h)

theorem read_configuration (hi : i < 64) :
    d.read (gicdIcfgr0 + i * 4) 32 = .ok ((d.configuration.reg i).setWidth 64) := by
  have le {c : ℕ} (h : c ≤ gicdIcfgr0) : c ≤ gicdIcfgr0 + i * 4 := Nat.le_add_right_of_le h
  obtain ⟨h₁, h₂, h₃, h₄, h₅, h₆, h₇, h₈, h₉⟩ := priority_windows _ (le (by decide))
  unfold read
  dsimp only
  rw [if_neg (not_register_of_lt h₁), if_neg (not_register_of_lt h₂),
    if_neg (not_window_of_lt h₃), if_neg (not_window_of_lt h₄), if_neg (not_window_of_lt h₅),
    if_neg (not_window_of_lt h₆), if_neg (not_window_of_lt h₇), if_neg (not_window_of_lt h₈),
    if_neg (not_window_of_lt h₉), if_neg (not_priority_of_le (le (by decide))),
    if_pos (window_of_lt 64 (by decide) hi), index_add, Bank.get_of_lt hi]
  rfl

theorem read_groupModifier (hi : i < 32) :
    d.read (gicdIgrpmodr0 + i * 4) 32 = .ok ((d.groupModifier.reg i).setWidth 64) := by
  have le {c : ℕ} (h : c ≤ gicdIgrpmodr0) : c ≤ gicdIgrpmodr0 + i * 4 := Nat.le_add_right_of_le h
  obtain ⟨h₁, h₂, h₃, h₄, h₅, h₆, h₇, h₈, h₉⟩ := priority_windows _ (le (by decide))
  unfold read
  dsimp only
  rw [if_neg (not_register_of_lt h₁), if_neg (not_register_of_lt h₂),
    if_neg (not_window_of_lt h₃), if_neg (not_window_of_lt h₄), if_neg (not_window_of_lt h₅),
    if_neg (not_window_of_lt h₆), if_neg (not_window_of_lt h₇), if_neg (not_window_of_lt h₈),
    if_neg (not_window_of_lt h₉), if_neg (not_priority_of_le (le (by decide))),
    if_neg (not_window_of_lt (Nat.lt_add_right _ (by decide))),
    if_pos (window_of_lt 32 (by decide) hi), index_add, Bank.get_of_lt hi]
  rfl

@[simp] theorem setWidth_setWidth_32 (v : BitVec 32) : (v.setWidth 64).setWidth 32 = v := by
  simp

theorem write_group (hi : i < 32) : d.write cpu (gicdIgroupr0 + i * 4) 32 (v.setWidth 64) =
    .ok ({ d with group := d.group.update i v }, cpu) := by
  unfold write
  dsimp only
  rw [if_neg (not_register_of_lt (Nat.lt_add_right _ (by decide))),
    if_pos (window_of_lt 32 (by decide) hi), index_add, setWidth_setWidth_32, Bank.set_of_lt hi]
  rfl

theorem write_isenabler (hi : i < 32) :
    d.write cpu (gicdIsenabler0 + i * 4) 32 (v.setWidth 64) = (do
      let enable ← d.enable.modify i (· ||| (v.setWidth 64).setWidth 32)
      scan { d with enable } getPending cpu (i * 32) (v.setWidth 64)) := by
  have lt {c : ℕ} (h : c < gicdIsenabler0) : c < gicdIsenabler0 + i * 4 := Nat.lt_add_right _ h
  unfold write
  dsimp only
  rw [if_neg (not_register_of_lt (lt (by decide))), if_neg (not_window_of_lt (lt (by decide))),
    if_pos (window_of_lt 32 (by decide) hi), index_add]

theorem write_icenabler (hi : i < 32) :
    d.write cpu (gicdIcenabler0 + i * 4) 32 (v.setWidth 64) =
      .ok ({ d with enable := d.enable.update i (d.enable.reg i &&& ~~~v) }, cpu) := by
  have lt {c : ℕ} (h : c < gicdIcenabler0) : c < gicdIcenabler0 + i * 4 := Nat.lt_add_right _ h
  unfold write
  dsimp only
  rw [if_neg (not_register_of_lt (lt (by decide))), if_neg (not_window_of_lt (lt (by decide))),
    if_neg (not_window_of_lt (lt (by decide))), if_pos (window_of_lt 32 (by decide) hi), index_add,
    setWidth_setWidth_32, Bank.modify_of_lt hi]
  rfl

theorem write_ispendr (hi : i < 32) :
    d.write cpu (gicdIspendr0 + i * 4) 32 (v.setWidth 64) = (do
      let pending ← d.pending.modify i (· ||| (v.setWidth 64).setWidth 32)
      scan { d with pending } getEnable cpu (i * 4 * 8) (v.setWidth 64)) := by
  have lt {c : ℕ} (h : c < gicdIspendr0) : c < gicdIspendr0 + i * 4 := Nat.lt_add_right _ h
  unfold write
  dsimp only
  rw [if_neg (not_register_of_lt (lt (by decide))), if_neg (not_window_of_lt (lt (by decide))),
    if_neg (not_window_of_lt (lt (by decide))), if_neg (not_window_of_lt (lt (by decide))),
    if_pos (window_of_lt 32 (by decide) hi), index_add]

theorem write_icpendr (hi : i < 32) :
    d.write cpu (gicdIcpendr0 + i * 4) 32 (v.setWidth 64) =
      .ok ({ d with pending := d.pending.update i (d.pending.reg i &&& ~~~v) }, cpu) := by
  have lt {c : ℕ} (h : c < gicdIcpendr0) : c < gicdIcpendr0 + i * 4 := Nat.lt_add_right _ h
  unfold write
  dsimp only
  rw [if_neg (not_register_of_lt (lt (by decide))), if_neg (not_window_of_lt (lt (by decide))),
    if_neg (not_window_of_lt (lt (by decide))), if_neg (not_window_of_lt (lt (by decide))),
    if_neg (not_window_of_lt (lt (by decide))), if_pos (window_of_lt 32 (by decide) hi), index_add,
    setWidth_setWidth_32, Bank.modify_of_lt hi]
  rfl

theorem write_priority (hi : i < 255) : d.write cpu (gicdIpriorityr0 + i * 4) 32 (v.setWidth 64) =
    .ok ({ d with priority := d.priority.update i v }, cpu) := by
  obtain ⟨h₁, -, h₃, h₄, h₅, h₆, h₇, h₈, h₉⟩ := priority_windows _ (priority_of_lt hi).1
  unfold write
  dsimp only
  rw [if_neg (not_register_of_lt h₁), if_neg (not_window_of_lt h₃), if_neg (not_window_of_lt h₄),
    if_neg (not_window_of_lt h₅), if_neg (not_window_of_lt h₆), if_neg (not_window_of_lt h₇),
    if_neg (not_window_of_lt h₈), if_neg (not_window_of_lt h₉), if_pos (priority_of_lt hi),
    index_add, Nat.add_sub_cancel_left, Nat.sub_self, if_neg (by decide), if_pos ⟨rfl, rfl⟩,
    setWidth_setWidth_32, Bank.set_of_lt hi]
  rfl

theorem write_configuration (hi : i < 64) : d.write cpu (gicdIcfgr0 + i * 4) 32 (v.setWidth 64) =
    .ok ({ d with configuration := d.configuration.update i v }, cpu) := by
  have le {c : ℕ} (h : c ≤ gicdIcfgr0) : c ≤ gicdIcfgr0 + i * 4 := Nat.le_add_right_of_le h
  obtain ⟨h₁, -, h₃, h₄, h₅, h₆, h₇, h₈, h₉⟩ := priority_windows _ (le (by decide))
  unfold write
  dsimp only
  rw [if_neg (not_register_of_lt h₁), if_neg (not_window_of_lt h₃), if_neg (not_window_of_lt h₄),
    if_neg (not_window_of_lt h₅), if_neg (not_window_of_lt h₆), if_neg (not_window_of_lt h₇),
    if_neg (not_window_of_lt h₈), if_neg (not_window_of_lt h₉),
    if_neg (not_priority_of_le (le (by decide))), if_pos (window_of_lt 64 (by decide) hi), index_add,
    setWidth_setWidth_32, Bank.set_of_lt hi]
  rfl

theorem write_groupModifier (hi : i < 32) :
    d.write cpu (gicdIgrpmodr0 + i * 4) 32 (v.setWidth 64) =
      .ok ({ d with groupModifier := d.groupModifier.update i v }, cpu) := by
  have le {c : ℕ} (h : c ≤ gicdIgrpmodr0) : c ≤ gicdIgrpmodr0 + i * 4 := Nat.le_add_right_of_le h
  obtain ⟨h₁, -, h₃, h₄, h₅, h₆, h₇, h₈, h₉⟩ := priority_windows _ (le (by decide))
  unfold write
  dsimp only
  rw [if_neg (not_register_of_lt h₁), if_neg (not_window_of_lt h₃), if_neg (not_window_of_lt h₄),
    if_neg (not_window_of_lt h₅), if_neg (not_window_of_lt h₆), if_neg (not_window_of_lt h₇),
    if_neg (not_window_of_lt h₈), if_neg (not_window_of_lt h₉),
    if_neg (not_priority_of_le (le (by decide))),
    if_neg (not_window_of_lt (Nat.lt_add_right _ (by decide))),
    if_pos (window_of_lt 32 (by decide) hi), index_add, setWidth_setWidth_32, Bank.set_of_lt hi]
  rfl

/-- The routing registers are the last ones, and end at index 987. -/
theorem write_router (value : BitVec 64) : d.write cpu (gicdIrouter0 + i * 8) 64 value =
    .ok (if i ≤ 987 then { d with router := d.router.update i value } else d, cpu) := by
  have narrow {p : Prop} : ¬(p ∧ 64 = 32) := fun h => absurd h.2 (by decide)
  have le {c : ℕ} (h : c ≤ gicdIrouter0) : c ≤ gicdIrouter0 + i * 8 := Nat.le_add_right_of_le h
  unfold write
  dsimp only
  rw [if_neg narrow, if_neg narrow, if_neg narrow, if_neg narrow, if_neg narrow, if_neg narrow,
    if_neg narrow, if_neg narrow, if_neg (not_priority_of_le (le (by decide))), if_neg narrow,
    if_neg narrow]
  by_cases hi : i ≤ 987
  · have hwindow : gicdIrouter0 + i * 8 ≤ gicdIrouter1019 := by
      simp only [gicdIrouter0, gicdIrouter1019]
      omega
    rw [if_pos ⟨⟨Nat.le_add_right _ _, hwindow⟩, rfl⟩, Nat.add_sub_cancel_left,
      Nat.mul_div_cancel _ (by decide), Bank.set_of_lt (by omega), if_pos hi]
    rfl
  · have hwindow : gicdIrouter1019 < gicdIrouter0 + i * 8 := by
      simp only [gicdIrouter0, gicdIrouter1019]
      omega
    rw [if_neg fun h => absurd h.1.2 (not_le.mpr hwindow), if_neg hi]
    rfl

/-- The two bits of an interrupt in the configuration registers. -/
def getConfiguration (d : GicDistributorMmio) (intId : ℕ) : Exec (BitVec 32) :=
  field d.configuration 2 0b11#32 intId

end GicDistributorMmio

/-! ## Fields of a register -/

/-- The fields of a register after one of them was replaced. -/
theorem shiftRight_setField {w k j : ℕ} {mask r p : BitVec 32}
    (hmask : ∀ t, mask.getLsbD t = decide (t < w)) (hp : ∀ t, w ≤ t → p.getLsbD t = false)
    (hk : k + w ≤ 32) (hj : j + w ≤ 32) (hjk : j = k ∨ j + w ≤ k ∨ k + w ≤ j) :
    (GicDistributor.replaceField r mask k p >>> j) &&& mask =
      if j = k then p else (r >>> j) &&& mask := by
  unfold GicDistributor.replaceField
  apply BitVec.eq_of_getLsbD_eq
  intro t ht
  by_cases htw : t < w
  · have h32 : j + t < 32 := by omega
    simp only [BitVec.getLsbD_and, BitVec.getLsbD_ushiftRight, BitVec.getLsbD_or, BitVec.getLsbD_not,
      BitVec.getLsbD_shiftLeft, hmask, h32, htw, decide_true, Bool.and_true, Bool.true_and]
    by_cases hjk' : j = k
    · subst hjk'
      simp [htw]
    · rw [if_neg hjk']
      have hout : j + t < k ∨ w ≤ j + t - k := by omega
      rcases hout with hout | hout
      · simp [hout, hmask, htw]
      · simp [hp _ hout, not_lt.mpr hout, hmask, htw]
  · split_ifs
    · simp [hmask, htw, hp t (by omega)]
    · simp [hmask, htw]

/-- The fields of all interrupts after the field of one was replaced. -/
theorem field_setField {N w n : ℕ} (b : Bank N 32) {mask p : BitVec 32}
    (hmask : ∀ t, mask.getLsbD t = decide (t < w)) (hp : ∀ t, w ≤ t → p.getLsbD t = false)
    (hw : 32 / w * w = 32) (hn : n / (32 / w) < N) (m : ℕ) :
    GicDistributorMmio.field (b.update (n / (32 / w)) (GicDistributor.replaceField
        (b.reg (n / (32 / w))) mask (n % (32 / w) * w) p)) w mask m =
      if m = n then .ok p else GicDistributorMmio.field b w mask m := by
  have hper : 0 < 32 / w := Nat.pos_of_ne_zero fun h => by rw [h] at hw; omega
  have hoff : ∀ x, x % (32 / w) * w + w ≤ 32 := by
    intro x
    have := Nat.mul_le_mul_right w (Nat.succ_le_of_lt (Nat.mod_lt x hper))
    rwa [Nat.succ_mul, hw] at this
  simp only [GicDistributorMmio.field, Bank.get]
  by_cases hreg : m / (32 / w) = n / (32 / w)
  · have hmn : m % (32 / w) = n % (32 / w) ↔ m = n := by
      constructor
      · intro h
        rw [← Nat.div_add_mod m (32 / w), ← Nat.div_add_mod n (32 / w), hreg, h]
      · rintro rfl
        rfl
    have hapart : m % (32 / w) * w = n % (32 / w) * w ∨
        m % (32 / w) * w + w ≤ n % (32 / w) * w ∨ n % (32 / w) * w + w ≤ m % (32 / w) * w := by
      rcases Nat.lt_trichotomy (m % (32 / w)) (n % (32 / w)) with h | h | h
      · have := Nat.mul_le_mul_right w (Nat.succ_le_of_lt h)
        rw [Nat.succ_mul] at this
        exact .inr (.inl this)
      · exact .inl (by rw [h])
      · have := Nat.mul_le_mul_right w (Nat.succ_le_of_lt h)
        rw [Nat.succ_mul] at this
        exact .inr (.inr this)
    rw [hreg, if_pos hn, if_pos hn, Bank.update_reg_self, Exec.ok_bind, Exec.ok_bind,
      shiftRight_setField hmask hp (hoff n) (hoff m) hapart]
    have hwpos : 0 < w := Nat.pos_of_ne_zero fun h => by rw [h] at hw; omega
    have hiff : m % (32 / w) * w = n % (32 / w) * w ↔ m = n := by
      rw [Nat.mul_right_cancel_iff hwpos, hmn]
    simp only [hiff]
    split_ifs <;> rfl
  · have hmn : m ≠ n := fun h => hreg (by rw [h])
    rw [if_neg hmn, Bank.update_reg_of_ne _ hreg]

/-- A bit after its register has changed. -/
theorem bit_update (b : Bank 32 32) (i : ℕ) (r : BitVec 32) (m : ℕ) :
    (b.update i r).bit m = if m / 32 = i then r.getLsbD (m % 32) else b.bit m := by
  unfold Bank.bit
  split_ifs with h
  · rw [h, Bank.update_reg_self]
  · rw [Bank.update_reg_of_ne _ h]

/-- The bit of `n` in its register. -/
theorem getLsbD_bitOf (m n : ℕ) (h : m / 32 = n / 32) :
    (1#32 <<< (n % 32)).getLsbD (m % 32) = decide (m = n) := by
  have hm : m % 32 < 32 := Nat.mod_lt _ (by decide)
  rw [BitVec.getLsbD_shiftLeft, BitVec.getLsbD_one]
  simp only [hm, decide_true, Bool.true_and]
  by_cases hmn : m = n
  · subst hmn
    simp
  · have hne : m % 32 ≠ n % 32 := by omega
    by_cases hlt : m % 32 < n % 32
    · simp [hlt, hmn]
    · have : m % 32 - n % 32 ≠ 0 := by omega
      simp [hlt, hmn, this]

/-! ## Scans -/

namespace GicDistributorMmio

/-- Triggering an interrupt that is pending changes no pending bit. -/
theorem triggerInterrupt_pending {d d' : GicDistributorMmio} {cpu cpu' : Cpu} {n : ℕ} (hn : n < 1024)
    (hp : d.pending.bit n = true) (h : d.triggerInterrupt cpu n none = .ok (d', cpu')) (m : ℕ) :
    d'.pending.bit m = d.pending.bit m := by
  by_cases hm : m = n
  · subst hm
    have hset : (d.setPending m).pending.bit m = d.pending.bit m := by simp [setPending_bit, hp]
    rw [triggerInterrupt_eq hn] at h
    split_ifs at h <;> cases h <;> first | rfl | exact hset
  · exact (triggerInterrupt_keeps hn h).2 m hm

/-- What a scan of `value` leaves as it was. -/
theorem scan_keeps {test : GicDistributorMmio → ℕ → Exec Bool} {T : GicDistributorMmio → ℕ → Bool}
    (hT : IsTest test T) {d d' : GicDistributorMmio} {cpu cpu' : Cpu} {n : ℕ} {value : BitVec 64}
    (hv : value.toNat < 2 ^ 32) (hn : n + 32 ≤ 1024)
    (h : d.scan test cpu n value = .ok (d', cpu')) :
    Keeps d d' cpu cpu' ∧ ((∀ b, value.getLsbD b = true → d.pending.bit (n + b) = true) →
      ∀ m, d'.pending.bit m = d.pending.bit m) := by
  refine loop_ok (I := fun s => ∃ k, s.1.2.toNat < 2 ^ k ∧ s.1.1 + k ≤ 1024 ∧
      Keeps d s.2.1 cpu s.2.2 ∧ ((∀ b, value.getLsbD b = true → d.pending.bit (n + b) = true) →
        (∀ b, s.1.2.getLsbD b = true → d.pending.bit (s.1.1 + b) = true) ∧
          ∀ m, s.2.1.pending.bit m = d.pending.bit m)) (C := fun _ => True)
    (Q := fun r => Keeps d r.1 cpu r.2 ∧
      ((∀ b, value.getLsbD b = true → d.pending.bit (n + b) = true) →
        ∀ m, r.1.pending.bit m = d.pending.bit m)) ?_ ?_ _ _
    ⟨32, hv, hn, ⟨rfl, rfl, rfl, rfl, rfl⟩, fun hp => ⟨hp, fun _ => rfl⟩⟩ (throughout_true _ _) h
  · rintro ⟨⟨n, value⟩, d₁, cpu₁⟩ s' ⟨k, hk, hnk, hkeep, hpend⟩ - hs
    simp only [scanStep] at hs
    split_ifs at hs with h0
    · cases hs
    obtain ⟨⟨d₂, cpu₂⟩, hbit, hs⟩ := Exec.bind_eq_ok.mp hs
    cases hs
    obtain ⟨k, rfl⟩ : ∃ k', k = k' + 1 := by
      refine ⟨k - 1, ?_⟩
      rcases Nat.eq_zero_or_pos k with rfl | hk'
      · exact absurd (BitVec.eq_of_toNat_eq (by simpa using hk)) h0
      · omega
    simp only at hk hnk hpend ⊢
    have hlt : n < 1024 := by omega
    obtain ⟨hkeep', hother⟩ := scanBit_keeps hT hlt hbit
    refine ⟨k, ?_, by omega, ⟨hkeep'.ctlr.trans hkeep.ctlr,
      hkeep'.enable.trans hkeep.enable, hkeep'.groupModifier.trans hkeep.groupModifier,
      hkeep'.router.trans hkeep.router, hkeep'.mpidrEl1.trans hkeep.mpidrEl1⟩, fun hp => ?_⟩
    · rw [BitVec.toNat_ushiftRight, Nat.shiftRight_eq_div_pow]
      omega
    · obtain ⟨hbits, hsame⟩ := hpend hp
      refine ⟨fun b hb => ?_, fun m => ?_⟩
      · rw [BitVec.getLsbD_ushiftRight, Nat.add_comm 1 b] at hb
        have := hbits (b + 1) hb
        rwa [Nat.add_assoc, Nat.add_comm 1 b]
      · -- Only an interrupt whose bit is set is triggered, and it is pending already.
        rw [← hsame m]
        by_cases hm : m = n
        · subst hm
          unfold scanBit at hbit
          split_ifs at hbit with hset
          · cases hbit
            rfl
          · obtain ⟨fire, -, hbit⟩ := Exec.bind_eq_ok.mp hbit
            split_ifs at hbit
            · refine triggerInterrupt_pending hlt ?_ hbit m
              have := hbits 0 (by simpa [and_one_eq_zero] using hset)
              rw [hsame m]
              exact this
            · cases hbit
              rfl
        · exact hother m hm
  · rintro ⟨⟨n, value⟩, d₁, cpu₁⟩ r ⟨k, hk, hnk, hkeep, hpend⟩ - hs
    simp only [scanStep] at hs
    split_ifs at hs with h0
    · cases hs
      exact ⟨hkeep, fun hp => (hpend hp).2⟩
    · obtain ⟨_, -, hs⟩ := Exec.bind_eq_ok.mp hs
      cases hs

end GicDistributorMmio

/-! ## Calls of the driver -/

open GicDistributor

/-- The calls that set a field of an interrupt. -/
inductive DriverCall
  | setPriority (priority : BitVec 8)
  | setGroup (group : GicGroup)
  | setEnable (enable : Bool)
  | setPending (pending : Bool)
  | setTriggerMode (isLevelTrigger : Bool)
  | setRouting (mpidr : BitVec 64)

namespace DriverCall

def exec (n : ℕ) (s : Device) : DriverCall → Exec Device
  | setPriority priority => GicDistributor.setPriority n priority s
  | setGroup group => GicDistributor.setGroup n group s
  | setEnable enable => GicDistributor.setEnable n enable s
  | setPending pending => GicDistributor.setPending n pending s
  | setTriggerMode isLevelTrigger => GicDistributor.setTriggerMode n isLevelTrigger s
  | setRouting mpidr => GicDistributor.setRouting n mpidr s

/-- Between `d` and `d'` the field of `n` has become what the call asks for, and that of every other
interrupt is the same. -/
def Sets (n : ℕ) (d d' : GicDistributorMmio) : DriverCall → Prop
  | setPriority priority => d'.getPriority n = .ok (priority.setWidth 32) ∧
      ∀ m, m ≠ n → d'.getPriority m = d.getPriority m
  | setGroup .nonSecureGroup1 => (d'.getGroup n = .ok 1#32 ∧ d'.getGroupModifier n = .ok 0#32) ∧
      ∀ m, m ≠ n → d'.getGroup m = d.getGroup m ∧ d'.getGroupModifier m = d.getGroupModifier m
  | setEnable enable => d'.getEnable n = .ok enable ∧ ∀ m, m ≠ n → d'.getEnable m = d.getEnable m
  | setPending pending => d'.getPending n = .ok pending ∧
      ∀ m, m ≠ n → d'.getPending m = d.getPending m
  | setTriggerMode isLevelTrigger =>
      d'.getConfiguration n = .ok (if isLevelTrigger then 0b00#32 else 0b10#32) ∧
        ∀ m, m ≠ n → d'.getConfiguration m = d.getConfiguration m
  | setRouting mpidr => d'.getRouter n = .ok (mpidrToAffinity mpidr) ∧
      ∀ m, m ≠ n → d'.getRouter m = d.getRouter m

/-- The interrupt can be delivered, if the distributor is to deliver it. -/
def DeliversIf (s : Device) (m : ℕ) : Prop :=
  s.1.ctlr &&& gicdCtlrEnableGrp1ns ≠ 0#32 → s.1.groupModifier.bit m = false → s.1.Deliverable s.2 m

/-- When a call sets its field and nothing else. -/
def Condition (n : ℕ) (s : Device) : DriverCall → Prop
  | setEnable true => s.1.pending.bit n = true → DeliversIf s n
  | setPending true => ∀ m, m / 32 = n / 32 → (m = n ∨ s.1.pending.bit m = true) →
      s.1.enable.bit m = true → DeliversIf s m
  | setPending false => ∀ m, m / 32 = n / 32 → m ≠ n → s.1.pending.bit m = false
  | setRouting mpidr => n ≤ 987 ∨ s.1.router.reg n = mpidrToAffinity mpidr
  | _ => True

end DriverCall

section

variable {n : ℕ} {s : Device}

theorem getLsbD_mask (w : ℕ) (hw : w ≤ 32) (t : ℕ) :
    (BitVec.ofNat 32 (2 ^ w - 1)).getLsbD t = decide (t < w) := by
  rw [BitVec.getLsbD_ofNat, Nat.testBit_two_pow_sub_one]
  by_cases ht : t < w
  · simp [ht, ht.trans_le hw]
  · simp [ht]

theorem getLsbD_of_lt {p : BitVec 32} {w : ℕ} (h : p.toNat < 2 ^ w) (t : ℕ) (ht : w ≤ t) :
    p.getLsbD t = false :=
  Nat.testBit_lt_two_pow (h.trans_le (Nat.pow_le_pow_right (by decide) ht))

theorem and_pred_two_pow (k : ℕ) : n &&& (2 ^ k - 1) = n % 2 ^ k :=
  Nat.and_two_pow_sub_one_eq_mod n k

theorem setPriority_eq (hn : n < 1020) (priority : BitVec 8) : setPriority n priority s =
    .ok ({ s.1 with priority := s.1.priority.update (n / 4) (replaceField
      (s.1.priority.reg (n / 4)) 0xFF#32 (n % 4 * 8) (priority.setWidth 32)) }, s.2) := by
  have hi : n / 4 < 255 := by omega
  have hindex : n >>> 2 = n / 4 := Nat.shiftRight_eq_div_pow n 2
  have hoffset : (n &&& 0b11) <<< 3 = n % 4 * 8 := by
    rw [Nat.shiftLeft_eq]
    exact congrArg (· * 2 ^ 3) (and_pred_two_pow 2)
  simp only [setPriority, setField, readRegister, writeRegister, hindex, hoffset]
  rw [show gicdIpriorityr = gicdIpriorityr0 from rfl, GicDistributorMmio.read_priority hi]
  simp only [Exec.ok_bind, Exec.pure_eq_ok, GicDistributorMmio.setWidth_setWidth_32]
  rw [GicDistributorMmio.write_priority hi]

theorem setTriggerMode_eq (hn : n < 1024) (isLevelTrigger : Bool) :
    setTriggerMode n isLevelTrigger s =
      .ok ({ s.1 with configuration := s.1.configuration.update (n / 16) (replaceField
        (s.1.configuration.reg (n / 16)) 0x03#32 (n % 16 * 2)
        ((if isLevelTrigger then 0#32 else 1#32) <<< 1)) }, s.2) := by
  have hi : n / 16 < 64 := by omega
  have hoffset : (n &&& (32 / 2 - 1)) * 2 = n % 16 * 2 := congrArg (· * 2) (and_pred_two_pow 4)
  simp only [setTriggerMode, setField, readRegister, writeRegister, hoffset]
  rw [show gicdIcfgr = gicdIcfgr0 from rfl, show 32 / 2 = 16 from rfl,
    GicDistributorMmio.read_configuration hi]
  simp only [Exec.ok_bind, Exec.pure_eq_ok, GicDistributorMmio.setWidth_setWidth_32]
  rw [GicDistributorMmio.write_configuration hi]

theorem setGroup_eq (hn : n < 1024) : setGroup n .nonSecureGroup1 s =
    .ok ({ s.1 with
      group := s.1.group.update (n / 32) (replaceField
        (s.1.group.reg (n / 32)) 1#32 (n % 32 * 1) 1#32)
      groupModifier := s.1.groupModifier.update (n / 32) (replaceField
        (s.1.groupModifier.reg (n / 32)) 1#32 (n % 32 * 1) 0#32) }, s.2) := by
  have hi : n / 32 < 32 := by omega
  have hoffset : n &&& (32 - 1) = n % 32 * 1 := by rw [Nat.mul_one]; exact and_pred_two_pow 5
  simp only [setGroup, setField, readRegister, writeRegister, hoffset]
  rw [show gicdIgroupr = gicdIgroupr0 from rfl, show gicdIgrpmodr = gicdIgrpmodr0 from rfl,
    GicDistributorMmio.read_group hi]
  simp only [Exec.ok_bind, Exec.pure_eq_ok, GicDistributorMmio.setWidth_setWidth_32]
  rw [GicDistributorMmio.write_group hi]
  simp only [Exec.ok_bind]
  rw [GicDistributorMmio.read_groupModifier hi]
  simp only [Exec.ok_bind, GicDistributorMmio.setWidth_setWidth_32]
  rw [GicDistributorMmio.write_groupModifier hi]

theorem setPriority_sets (hn : n < 1020) (priority : BitVec 8) :
    ∃ s', setPriority n priority s = .ok s' ∧ (DriverCall.setPriority priority).Sets n s.1 s'.1 := by
  have hfield := field_setField s.1.priority (w := 8) (n := n) (p := priority.setWidth 32)
    (getLsbD_mask 8 (by decide))
    (getLsbD_of_lt (by have := priority.isLt; rw [BitVec.toNat_setWidth]; omega)) rfl
    (show n / 4 < 255 by omega)
  exact ⟨_, setPriority_eq hn priority, (hfield n).trans (if_pos rfl),
    fun m hm => (hfield m).trans (if_neg hm)⟩

theorem setTriggerMode_sets (hn : n < 1024) (isLevelTrigger : Bool) :
    ∃ s', setTriggerMode n isLevelTrigger s = .ok s' ∧
      (DriverCall.setTriggerMode isLevelTrigger).Sets n s.1 s'.1 := by
  have hfield := field_setField s.1.configuration (w := 2) (n := n)
    (p := (if isLevelTrigger then 0#32 else 1#32) <<< 1)
    (getLsbD_mask 2 (by decide)) (getLsbD_of_lt (by cases isLevelTrigger <;> decide)) rfl
    (show n / 16 < 64 by omega)
  refine ⟨_, setTriggerMode_eq hn isLevelTrigger, ((hfield n).trans (if_pos rfl)).trans ?_,
    fun m hm => (hfield m).trans (if_neg hm)⟩
  cases isLevelTrigger
  · rfl
  · rfl

theorem setGroup_sets (hn : n < 1024) (group : GicGroup) :
    ∃ s', setGroup n group s = .ok s' ∧ (DriverCall.setGroup group).Sets n s.1 s'.1 := by
  cases group
  have hfield (b : Bank 32 32) (p : BitVec 32) (hp : ∀ t, 1 ≤ t → p.getLsbD t = false) :=
    field_setField b (w := 1) (n := n) (p := p) (getLsbD_mask 1 (by decide)) hp rfl
      (show n / 32 < 32 by omega)
  have hgroup := hfield s.1.group 1#32 (getLsbD_of_lt (by decide))
  have hmodifier := hfield s.1.groupModifier 0#32 (by simp)
  exact ⟨_, setGroup_eq hn, ⟨(hgroup n).trans (if_pos rfl), (hmodifier n).trans (if_pos rfl)⟩,
    fun m hm => ⟨(hgroup m).trans (if_neg hm), (hmodifier m).trans (if_neg hm)⟩⟩

theorem setRouting_sets_iff (hn : n < 1020) (mpidr : BitVec 64) :
    (∃ s', setRouting n mpidr s = .ok s' ∧ (DriverCall.setRouting mpidr).Sets n s.1 s'.1) ↔
      n ≤ 987 ∨ s.1.router.reg n = mpidrToAffinity mpidr := by
  have heq : setRouting n mpidr s = _ := GicDistributorMmio.write_router (mpidrToAffinity mpidr)
  simp only [heq, Except.ok.injEq, exists_eq_left', DriverCall.Sets, GicDistributorMmio.getRouter]
  by_cases hi : n ≤ 987
  · simp only [hi, if_true, true_or, iff_true]
    refine ⟨by rw [Bank.get_of_lt hn, Bank.update_reg_self], fun m hm => ?_⟩
    simp only [Bank.get, Bank.update_reg_of_ne _ hm]
  · simp [hi, Bank.get_of_lt hn]

theorem getEnable_congr {d d' : GicDistributorMmio} {m : ℕ} (h : d'.enable.bit m = d.enable.bit m) :
    d'.getEnable m = d.getEnable m := by
  by_cases hm : m < 1024
  · rw [GicDistributorMmio.getEnable_eq hm, GicDistributorMmio.getEnable_eq hm, h]
  · simp [GicDistributorMmio.getEnable, GicDistributorMmio.field,
      Bank.get_of_le (show 32 ≤ m / 32 by omega)]

theorem getPending_congr {d d' : GicDistributorMmio} {m : ℕ}
    (h : d'.pending.bit m = d.pending.bit m) : d'.getPending m = d.getPending m := by
  by_cases hm : m < 1024
  · rw [GicDistributorMmio.getPending_eq hm, GicDistributorMmio.getPending_eq hm, h]
  · simp [GicDistributorMmio.getPending, GicDistributorMmio.field,
      Bank.get_of_le (show 32 ≤ m / 32 by omega)]

theorem toNat_setWidth_lt (v : BitVec 32) : (v.setWidth 64).toNat < 2 ^ 32 := by
  have := v.isLt
  rw [BitVec.toNat_setWidth]
  omega

theorem getLsbD_setWidth_64 (v : BitVec 32) (b : ℕ) : (v.setWidth 64).getLsbD b = v.getLsbD b := by
  by_cases hb : b < 64
  · simp [hb]
  · simp [hb, BitVec.getLsbD_of_ge v b (by omega)]

/-- A condition on the set bits of a register is one on the interrupts of the register. -/
theorem forall_register_bits (P : ℕ → Prop) {v : BitVec 32} :
    (∀ b, v.getLsbD b = true → P (n / 32 * 32 + b)) ↔
      ∀ m, m / 32 = n / 32 → v.getLsbD (m % 32) = true → P m := by
  constructor
  · intro h m hm hv
    have := h (m % 32) hv
    rwa [← hm, Nat.div_add_mod' m 32] at this
  · intro h b hb
    have hlt : b < 32 := by
      by_contra hge
      rw [BitVec.getLsbD_of_ge v b (by omega)] at hb
      cases hb
    refine h _ (by omega) ?_
    rwa [show (n / 32 * 32 + b) % 32 = b by omega]

/-- What a scanned register can deliver, as a condition on its interrupts. -/
theorem deliversSafely_iff {P : ℕ → Prop} {v : BitVec 32} :
    DistributorAccess.DeliversSafely s.1 s.2 P (n / 32) (v.setWidth 64) ↔
      ∀ m, m / 32 = n / 32 → v.getLsbD (m % 32) = true → P m → DriverCall.DeliversIf s m := by
  have hbits := forall_register_bits (n := n) (v := v)
    (fun m => P m → s.1.groupModifier.bit m = false → s.1.Deliverable s.2 m)
  simp only [DistributorAccess.DeliversSafely, getLsbD_setWidth_64, hbits]
  exact ⟨fun h m hm hb hp hc hg => h hc m hm hb hp hg,
    fun h hc m hm hb hp hg => h m hm hb hp hc hg⟩

theorem setEnable_sets_iff (hn : n < 1020) (enable : Bool) :
    (∃ s', setEnable n enable s = .ok s' ∧ (DriverCall.setEnable enable).Sets n s.1 s'.1) ↔
      (DriverCall.setEnable enable).Condition n s := by
  have hi : n / 32 < 32 := by omega
  have hoffset : n &&& (32 - 1) = n % 32 := and_pred_two_pow 5
  cases enable with
  | false =>
    simp only [DriverCall.Condition, iff_true]
    have heq : setEnable n false s = .ok ({ s.1 with enable := (s.1.enable.update (n / 32)
        (s.1.enable.reg (n / 32) &&& ~~~(1#32 <<< (n % 32)))) }, s.2) := by
      simp only [setEnable, writeRegister, hoffset, Bool.false_eq_true, if_false]
      exact GicDistributorMmio.write_icenabler hi
    have hbit : ∀ m, (s.1.enable.update (n / 32)
        (s.1.enable.reg (n / 32) &&& ~~~(1#32 <<< (n % 32)))).bit m =
          (s.1.enable.bit m && !decide (m = n)) := by
      intro m
      rw [bit_update]
      split_ifs with h
      · have h32 : m % 32 < 32 := Nat.mod_lt _ (by decide)
        simp only [BitVec.getLsbD_and, BitVec.getLsbD_not, getLsbD_bitOf m n h, h32, decide_true,
          Bool.true_and, Bank.bit, h]
      · have : m ≠ n := fun hm => h (by rw [hm])
        simp [this]
    refine ⟨_, heq, ?_, fun m hm => getEnable_congr ?_⟩
    · rw [GicDistributorMmio.getEnable_eq (by omega)]
      simp [hbit]
    · simp [hbit, hm]
  | true =>
    have hv := toNat_setWidth_lt (1#32 <<< (n % 32))
    have heq : setEnable n true s = (do
        let enable ← s.1.enable.modify (n / 32) (· ||| ((1#32 <<< (n % 32)).setWidth 64).setWidth 32)
        GicDistributorMmio.scan { s.1 with enable } GicDistributorMmio.getPending s.2 (n / 32 * 32)
          ((1#32 <<< (n % 32)).setWidth 64)) := by
      simp only [setEnable, writeRegister, hoffset, if_true]
      exact GicDistributorMmio.write_isenabler hi
    have hreturns : Exec.Returns (setEnable n true s) ↔ DistributorAccess.DeliversSafely s.1 s.2
        (s.1.pending.bit · = true) (n / 32) ((1#32 <<< (n % 32)).setWidth 64) := by
      rw [heq]
      exact DistributorAccess.isenabler_returns_iff hi hv
    have hcond : DistributorAccess.DeliversSafely s.1 s.2 (s.1.pending.bit · = true) (n / 32)
        ((1#32 <<< (n % 32)).setWidth 64) ↔ (DriverCall.setEnable true).Condition n s := by
      rw [deliversSafely_iff]
      constructor
      · intro h hp
        exact h n rfl (by rw [getLsbD_bitOf n n rfl]; simp) hp
      · intro h m hm hb hp
        rw [getLsbD_bitOf m n hm, decide_eq_true_eq] at hb
        subst hb
        exact h hp
    rw [← hcond, ← hreturns]
    constructor
    · rintro ⟨s', hs', -⟩
      exact ⟨s', hs'⟩
    · rintro ⟨s', hs'⟩
      refine ⟨s', hs', ?_⟩
      rw [heq, Bank.modify_of_lt hi, Exec.ok_bind] at hs'
      have hkeep := (GicDistributorMmio.scan_keeps GicDistributorMmio.isTest_getPending hv (by omega)
        hs').1.enable
      have hbit : ∀ m, s'.1.enable.bit m = (s.1.enable.bit m || decide (m = n)) := by
        intro m
        rw [hkeep, bit_update, GicDistributorMmio.setWidth_setWidth_32]
        split_ifs with h
        · simp only [BitVec.getLsbD_or, getLsbD_bitOf m n h, Bank.bit, h]
        · have : m ≠ n := fun hm => h (by rw [hm])
          simp [this]
      refine ⟨?_, fun m hm => getEnable_congr (by simp [hbit, hm])⟩
      rw [GicDistributorMmio.getEnable_eq (by omega)]
      simp [hbit]

/-- The bits that `set_pending` writes. -/
theorem getLsbD_pending {m : ℕ} (h : m / 32 = n / 32) :
    (s.1.pending.reg (n / 32) ||| (1#32 <<< (n % 32))).getLsbD (m % 32) =
      (s.1.pending.bit m || decide (m = n)) := by
  rw [BitVec.getLsbD_or, getLsbD_bitOf m n h, Bank.bit, h]

/-- Every pending interrupt of the register is cleared. -/
theorem setPending_false_sets_iff (hn : n < 1020) :
    (∃ s', setPending n false s = .ok s' ∧ (DriverCall.setPending false).Sets n s.1 s'.1) ↔
      (DriverCall.setPending false).Condition n s := by
  have hi : n / 32 < 32 := by omega
  have hoffset : n &&& (32 - 1) = n % 32 := and_pred_two_pow 5
  have heq : setPending n false s = .ok ({ s.1 with pending := (s.1.pending.update (n / 32)
      (s.1.pending.reg (n / 32) &&&
        ~~~(s.1.pending.reg (n / 32) ||| (1#32 <<< (n % 32))))) }, s.2) := by
    simp only [setPending, readRegister, writeRegister, hoffset, Bool.false_eq_true, if_false]
    rw [show gicdIcpendr = gicdIcpendr0 from rfl, GicDistributorMmio.read_icpendr hi]
    simp only [Exec.ok_bind, Exec.pure_eq_ok, GicDistributorMmio.setWidth_setWidth_32]
    rw [GicDistributorMmio.write_icpendr hi]
  have hbit : ∀ m, (s.1.pending.update (n / 32) (s.1.pending.reg (n / 32) &&&
      ~~~(s.1.pending.reg (n / 32) ||| (1#32 <<< (n % 32))))).bit m =
        (s.1.pending.bit m && !decide (m / 32 = n / 32)) := by
    intro m
    rw [bit_update]
    split_ifs with h
    · have h32 : m % 32 < 32 := Nat.mod_lt _ (by decide)
      rw [BitVec.getLsbD_and, BitVec.getLsbD_not, getLsbD_pending h]
      cases hp : s.1.pending.bit m with
      | true => simp [h]
      | false => rw [Bank.bit, h] at hp; simp [hp]
    · simp [h]
  simp only [heq, Except.ok.injEq, exists_eq_left', DriverCall.Sets, DriverCall.Condition]
  constructor
  · rintro ⟨-, hother⟩ m hm hne
    have := hother m hne
    rw [GicDistributorMmio.getPending_eq (by omega), GicDistributorMmio.getPending_eq (by omega)]
      at this
    have hsame := Except.ok.inj this
    rw [hbit] at hsame
    simpa [hm] using hsame.symm
  · intro h
    refine ⟨?_, fun m hm => getPending_congr ?_⟩
    · rw [GicDistributorMmio.getPending_eq (by omega)]
      simp [hbit]
    · simp only [hbit]
      by_cases hreg : m / 32 = n / 32
      · simp [h m hreg hm]
      · simp [hreg]

theorem setPending_true_sets_iff (hn : n < 1020) :
    (∃ s', setPending n true s = .ok s' ∧ (DriverCall.setPending true).Sets n s.1 s'.1) ↔
      (DriverCall.setPending true).Condition n s := by
  have hi : n / 32 < 32 := by omega
  have hoffset : n &&& (32 - 1) = n % 32 := and_pred_two_pow 5
  obtain ⟨v, hvdef⟩ : ∃ v, s.1.pending.reg (n / 32) ||| (1#32 <<< (n % 32)) = v := ⟨_, rfl⟩
  have hvbit : ∀ {m}, m / 32 = n / 32 →
      v.getLsbD (m % 32) = (s.1.pending.bit m || decide (m = n)) := fun h =>
    hvdef ▸ getLsbD_pending h
  have hv := toNat_setWidth_lt v
  have heq : setPending n true s = (do
      let pending ← s.1.pending.modify (n / 32) (· ||| (v.setWidth 64).setWidth 32)
      GicDistributorMmio.scan { s.1 with pending } GicDistributorMmio.getEnable s.2 (n / 32 * 4 * 8)
        (v.setWidth 64)) := by
    simp only [setPending, readRegister, writeRegister, hoffset, if_true]
    rw [show gicdIspendr = gicdIspendr0 from rfl, GicDistributorMmio.read_ispendr hi]
    simp only [Exec.ok_bind, Exec.pure_eq_ok, GicDistributorMmio.setWidth_setWidth_32, hvdef]
    rw [GicDistributorMmio.write_ispendr hi, GicDistributorMmio.setWidth_setWidth_32]
  have hreturns : Exec.Returns (setPending n true s) ↔ DistributorAccess.DeliversSafely s.1 s.2
      (s.1.enable.bit · = true) (n / 32) (v.setWidth 64) := by
    rw [heq]
    exact DistributorAccess.ispendr_returns_iff hi hv
  have hcond : DistributorAccess.DeliversSafely s.1 s.2 (s.1.enable.bit · = true) (n / 32)
      (v.setWidth 64) ↔ (DriverCall.setPending true).Condition n s := by
    rw [deliversSafely_iff]
    constructor
    · intro h m hm hp he
      refine h m hm ?_ he
      rw [hvbit hm]
      rcases hp with rfl | hp
      · simp
      · simp [hp]
    · intro h m hm hb he
      rw [hvbit hm, Bool.or_eq_true, decide_eq_true_eq] at hb
      exact h m hm hb.symm he
  rw [← hcond, ← hreturns]
  constructor
  · rintro ⟨s', hs', -⟩
    exact ⟨s', hs'⟩
  · rintro ⟨s', hs'⟩
    refine ⟨s', hs', ?_⟩
    rw [heq, Bank.modify_of_lt hi, Exec.ok_bind, Nat.mul_assoc (n / 32) 4 8,
      GicDistributorMmio.setWidth_setWidth_32] at hs'
    have hset : ∀ m, (s.1.pending.update (n / 32) (s.1.pending.reg (n / 32) ||| v)).bit m =
        (s.1.pending.bit m || decide (m = n)) := by
      intro m
      rw [bit_update]
      split_ifs with h
      · rw [BitVec.getLsbD_or, hvbit h, Bank.bit, h, ← Bool.or_assoc, Bool.or_self]
      · have : m ≠ n := fun hm => h (by rw [hm])
        simp [this]
    -- All interrupts of the scan are pending already.
    have hkeep := (GicDistributorMmio.scan_keeps GicDistributorMmio.isTest_getEnable hv (by omega)
      hs').2 (fun b hb => ?_)
    · have hbit : ∀ m, s'.1.pending.bit m = (s.1.pending.bit m || decide (m = n)) := fun m =>
        (hkeep m).trans (hset m)
      refine ⟨?_, fun m hm => getPending_congr (by simp [hbit, hm])⟩
      rw [GicDistributorMmio.getPending_eq (by omega)]
      simp [hbit]
    · rw [getLsbD_setWidth_64] at hb
      simp only [hset]
      refine (forall_register_bits fun m => (s.1.pending.bit m || decide (m = n)) = true).mpr
        (fun m hm hb => ?_) b hb
      rwa [hvbit hm] at hb

end

/-- Each call of the driver sets its field of `n`, and no field of another interrupt, exactly under its
condition. -/
theorem driverCall_sets_iff {n : ℕ} (hn : 32 ≤ n ∧ n ≤ 1019) (s : Device) (call : DriverCall) :
    (∃ s', call.exec n s = .ok s' ∧ call.Sets n s.1 s'.1) ↔ call.Condition n s := by
  have hlt : n < 1020 := by omega
  cases call with
  | setPriority priority => exact iff_of_true (setPriority_sets hlt priority) trivial
  | setGroup group => exact iff_of_true (setGroup_sets (by omega) group) trivial
  | setEnable enable => exact setEnable_sets_iff hlt enable
  | setPending pending =>
    cases pending with
    | false => exact setPending_false_sets_iff hlt
    | true => exact setPending_true_sets_iff hlt
  | setTriggerMode isLevelTrigger => exact iff_of_true (setTriggerMode_sets (by omega) _) trivial
  | setRouting mpidr => exact setRouting_sets_iff hlt mpidr

/-- A distributor where the interrupts 33 and 34 are pending, on a CPU without list registers in use. -/
def twoPending : Device :=
  ({ GicDistributorMmio.new with pending := Bank.update (.fill 0) 1 0b110#32 },
    { mpidrEl1 := 0, ichVtrEl2 := 0, lr := fun _ => 0#64, iccSgi1rEl1 := [] })

/-- The priority of one of them is set. -/
theorem driverCall_sets_iff_priority :
    ∃ s', (DriverCall.setPriority 0x80).exec 33 twoPending = .ok s' ∧
      (DriverCall.setPriority 0x80).Sets 33 twoPending.1 s'.1 :=
  (driverCall_sets_iff ⟨by decide, by decide⟩ twoPending (.setPriority 0x80)).mpr trivial

/-- One of them is cleared, and so is the other one. -/
theorem setPending_clears_other :
    ¬∃ s', (DriverCall.setPending false).exec 33 twoPending = .ok s' ∧
      (DriverCall.setPending false).Sets 33 twoPending.1 s'.1 := by
  intro h
  have hclear := (setPending_false_sets_iff (by decide)).mp h 34 (by decide) (by decide)
  exact absurd hclear (by decide)

end MiniVisor
