import Mathlib.Tactic.IntervalCases
import MiniVisor.GicRun

/-!
# Affinities

A CPU is named by four bytes, which lie in `MPIDR_EL1`, `GICD_IROUTER`, `GICR_TYPER`, the packed
affinity of `asm.rs` and `ICC_SGI1R_EL1`, each with its own layout. `generate_typer` and
`get_affinity` agree with `get_packed_affinity`, so a CPU finds its redistributor. Both
`trigger_interrupt` functions put `aff1` where `aff3` belongs (`router_aff1 << 48`), so the CPU they
interrupt is the one they mean only if `aff1` is 0. -/

namespace MiniVisor

open Machine

/-! ## Layouts -/

/-- `asm::get_packed_affinity`, for a CPU with this `MPIDR_EL1`. -/
def getPackedAffinity (mpidrEl1 : BitVec 64) : BitVec 32 :=
  let mpidr := mpidrToAffinity mpidrEl1
  ((mpidr &&& ((1#64 <<< 24) - 1#64)) ||| ((mpidr &&& (0xff#64 <<< 32)) >>> (32 - 24))).setWidth 32

namespace GicRedistributor

def gicrMmioSize : ℕ := 0x20000

/-- `get_affinity`, where `mmio` is what a read of 64 bits returns. -/
def getAffinity (mmio : ℕ → Exec (BitVec 64)) (baseAddress : ℕ) : Exec (BitVec 32) := do
  let address ← checkedAdd 64 baseAddress gicrTyper
  pure (((← mmio address) >>> 32).setWidth 32)

/-- One iteration of `get_self_redistributor`. -/
def selfStep (mmio : ℕ → Exec (BitVec 64)) (affinity : BitVec 32) (limit baseAddress : ℕ) :
    Exec (Iter ℕ (Except Unit ℕ)) := do
  if limit ≤ baseAddress then pure (.done (.error ()))
  else
    let found ← getAffinity mmio baseAddress
    if found = affinity then pure (.done (.ok baseAddress))
    else
      let baseAddress ← checkedAdd 64 baseAddress gicrMmioSize
      pure (.next baseAddress)

/-- `get_self_redistributor`, on a CPU with this `MPIDR_EL1`. -/
def getSelfRedistributor (mmio : ℕ → Exec (BitVec 64)) (mpidrEl1 : BitVec 64)
    (baseAddress length : ℕ) : Exec (Except Unit ℕ) := do
  let limit ← checkedAdd 64 baseAddress length
  loop (selfStep mmio (getPackedAffinity mpidrEl1) limit) (2 ^ 64) baseAddress

end GicRedistributor

/-- The CPU and the INTID of a software-generated interrupt, as the processor reads them from
`ICC_SGI1R_EL1`. -/
structure SoftwareInterrupt where
  aff3 : BitVec 8
  rangeSelector : BitVec 4
  toAllOthers : Bool
  aff2 : BitVec 8
  intId : BitVec 4
  aff1 : BitVec 8
  targetList : BitVec 16
  deriving DecidableEq

def SoftwareInterrupt.decode (v : BitVec 64) : SoftwareInterrupt where
  aff3 := v.extractLsb' 48 8
  rangeSelector := v.extractLsb' 44 4
  toAllOthers := v.getLsbD 40
  aff2 := v.extractLsb' 32 8
  intId := v.extractLsb' 24 4
  aff1 := v.extractLsb' 16 8
  targetList := v.extractLsb' 0 16

/-- The interrupt with INTID 11 for the one CPU that `a` names. -/
def SoftwareInterrupt.to (a : BitVec 64) : SoftwareInterrupt where
  aff3 := a.extractLsb' 32 8
  rangeSelector := a.extractLsb' 4 4
  toAllOthers := false
  aff2 := a.extractLsb' 16 8
  intId := 11
  aff1 := a.extractLsb' 8 8
  targetList := 1#16 <<< (a.extractLsb' 0 4).toNat

/-! ## The fields -/

section Fields

variable (a : BitVec 64) (i : ℕ)

theorem getLsbD_aff3 : (aff3 a).getLsbD i = (a.getLsbD (32 + i) && decide (i < 8)) := by
  rw [aff3, getLsbD_field a (by decide)]
  congr 1
  exact decide_eq_decide.mpr (by omega)

theorem getLsbD_aff2 : (aff2 a).getLsbD i = (a.getLsbD (16 + i) && decide (i < 8)) := by
  rw [aff2, getLsbD_field a (by decide)]
  congr 1
  exact decide_eq_decide.mpr (by omega)

theorem getLsbD_aff1 : (aff1 a).getLsbD i = (a.getLsbD (8 + i) && decide (i < 8)) := by
  rw [aff1, getLsbD_field a (by decide)]
  congr 1
  exact decide_eq_decide.mpr (by omega)

theorem getLsbD_aff0 : (aff0 a).getLsbD i = (a.getLsbD i && decide (i < 8)) := by
  rw [aff0, BitVec.getLsbD_and, getLsbD_lowMask (by decide)]

theorem aff3_eq : aff3 a = (a.extractLsb' 32 8).setWidth 64 := by
  ext i hi
  rw [← BitVec.getLsbD_eq_getElem, getLsbD_aff3]
  by_cases h8 : i < 8 <;> simp [h8]

theorem aff2_eq : aff2 a = (a.extractLsb' 16 8).setWidth 64 := by
  ext i hi
  rw [← BitVec.getLsbD_eq_getElem, getLsbD_aff2]
  by_cases h8 : i < 8 <;> simp [h8]

theorem aff1_eq : aff1 a = (a.extractLsb' 8 8).setWidth 64 := by
  ext i hi
  rw [← BitVec.getLsbD_eq_getElem, getLsbD_aff1]
  by_cases h8 : i < 8 <;> simp [h8]

theorem aff0_eq : aff0 a = (a.extractLsb' 0 8).setWidth 64 := by
  ext i hi
  rw [← BitVec.getLsbD_eq_getElem, getLsbD_aff0]
  by_cases h8 : i < 8 <;> simp [h8]

end Fields

/-- The lowest byte, as the range selector and the target list divide it. -/
theorem aff0_eq_iff {x a : BitVec 64} : aff0 x = aff0 a ↔
    x.extractLsb' 4 4 = a.extractLsb' 4 4 ∧ x.extractLsb' 0 4 = a.extractLsb' 0 4 := by
  rw [aff0_eq, aff0_eq, setWidth_eq_iff (by decide)]
  constructor
  · intro h
    have hbit : ∀ i < 8, x.getLsbD i = a.getLsbD i := fun i hi => by
      have := congrArg (BitVec.getLsbD · i) h
      simpa [hi] using this
    constructor
    · ext i hi
      rw [BitVec.getElem_extractLsb', BitVec.getElem_extractLsb', hbit _ (by omega)]
    · ext i hi
      rw [BitVec.getElem_extractLsb', BitVec.getElem_extractLsb', hbit _ (by omega)]
  · rintro ⟨h1, h0⟩
    ext i hi
    rw [BitVec.getElem_extractLsb', BitVec.getElem_extractLsb']
    by_cases h4 : i < 4
    · have := congrArg (BitVec.getLsbD · i) h0
      simpa [h4] using this
    · have := congrArg (BitVec.getLsbD · (i - 4)) h1
      simp only [BitVec.getLsbD_extractLsb', show i - 4 < 4 by omega, decide_true, Bool.true_and,
        show 4 + (i - 4) = i by omega] at this
      simpa using this

namespace GicRedistributorMmio

/-- The upper half of `GICR_TYPER` is the packed affinity. -/
theorem getLsbD_generateTyper (r : GicRedistributorMmio) {i : ℕ} (hi : i < 32) :
    r.generateTyper.getLsbD (32 + i) =
      if i < 24 then r.affinity.getLsbD i else r.affinity.getLsbD (8 + i) := by
  have htyper : r.generateTyper = gicrTyperLast.setWidth 64 ||| (aff0 r.affinity <<< 32) |||
    (aff1 r.affinity <<< 40) ||| (aff2 r.affinity <<< 48) ||| (aff3 r.affinity <<< 56) := rfl
  rw [htyper]
  simp only [BitVec.getLsbD_or, BitVec.getLsbD_shiftLeft, BitVec.getLsbD_setWidth, getLsbD_aff0,
    getLsbD_aff1, getLsbD_aff2, getLsbD_aff3]
  interval_cases i <;> simp [gicrTyperLast]

/-- `GICR_TYPER` has 32 bits only for the CPU with affinity 0. -/
theorem generateTyper_lt_iff {r : GicRedistributorMmio} : r.generateTyper.toNat < 2 ^ 32 ↔
    sameAffinity r.affinity 0#64 := by
  obtain ⟨z3, z2, z1, z0⟩ : aff3 0#64 = 0#64 ∧ aff2 0#64 = 0#64 ∧ aff1 0#64 = 0#64 ∧ aff0 0#64 = 0#64 := by
    decide
  rw [sameAffinity, z3, z2, z1, z0]
  constructor
  · intro h
    have hbit : ∀ i < 32,
        (if i < 24 then r.affinity.getLsbD i else r.affinity.getLsbD (8 + i)) = false := fun i hi => by
      rw [← r.getLsbD_generateTyper hi, BitVec.getLsbD, Nat.testBit_lt_two_pow
        (h.trans_le (Nat.pow_le_pow_right (by decide) (Nat.le_add_right 32 i)))]
    have hlow : ∀ i < 24, r.affinity.getLsbD i = false := fun i hi => by
      simpa [hi] using hbit i (by omega)
    have hhigh : ∀ i < 8, r.affinity.getLsbD (32 + i) = false := fun i hi => by
      have := hbit (24 + i) (by omega)
      rwa [if_neg (by omega), show 8 + (24 + i) = 32 + i by omega] at this
    refine ⟨?_, ?_, ?_, ?_⟩
    · refine BitVec.eq_of_getLsbD_eq fun i _ => ?_
      rw [getLsbD_aff3, BitVec.getLsbD_zero]
      by_cases h8 : i < 8
      · rw [hhigh i h8, Bool.false_and]
      · rw [decide_eq_false h8, Bool.and_false]
    · refine BitVec.eq_of_getLsbD_eq fun i _ => ?_
      rw [getLsbD_aff2, BitVec.getLsbD_zero]
      by_cases h8 : i < 8
      · rw [hlow _ (by omega), Bool.false_and]
      · rw [decide_eq_false h8, Bool.and_false]
    · refine BitVec.eq_of_getLsbD_eq fun i _ => ?_
      rw [getLsbD_aff1, BitVec.getLsbD_zero]
      by_cases h8 : i < 8
      · rw [hlow _ (by omega), Bool.false_and]
      · rw [decide_eq_false h8, Bool.and_false]
    · refine BitVec.eq_of_getLsbD_eq fun i _ => ?_
      rw [getLsbD_aff0, BitVec.getLsbD_zero]
      by_cases h8 : i < 8
      · rw [hlow _ (by omega), Bool.false_and]
      · rw [decide_eq_false h8, Bool.and_false]
  · rintro ⟨h3, h2, h1, h0⟩
    have htyper : r.generateTyper = gicrTyperLast.setWidth 64 ||| (aff0 r.affinity <<< 32) |||
      (aff1 r.affinity <<< 40) ||| (aff2 r.affinity <<< 48) ||| (aff3 r.affinity <<< 56) := rfl
    rw [htyper, h0, h1, h2, h3]
    decide

end GicRedistributorMmio

/-- The affinity is where `get_packed_affinity` looks for it. -/
theorem packed_generateTyper (mpidrEl1 : BitVec 64) :
    ((GicRedistributorMmio.new mpidrEl1).generateTyper >>> 32).setWidth 32 =
      getPackedAffinity mpidrEl1 := by
  have haffinity : (GicRedistributorMmio.new mpidrEl1).affinity = mpidrToAffinity mpidrEl1 := rfl
  ext i hi
  rw [BitVec.getElem_setWidth, BitVec.getLsbD_ushiftRight,
    GicRedistributorMmio.getLsbD_generateTyper _ hi, haffinity]
  simp only [getPackedAffinity, BitVec.getElem_setWidth, BitVec.getLsbD_ushiftRight, BitVec.getLsbD_or,
    BitVec.getLsbD_shiftLeft, BitVec.getLsbD_and, getLsbD_lowMask (show 24 < 64 by decide)]
  interval_cases i <;> simp

/-- The lowest byte of a CPU that a target list can name has four bits. -/
theorem extract_of_aff0_lt {a : BitVec 64} (h0 : aff0 a < 16#64) :
    a.extractLsb' 4 4 = 0#4 ∧ (a.extractLsb' 0 4).toNat = (aff0 a).toNat := by
  have hlt : (aff0 a).toNat < 16 := BitVec.lt_def.mp h0
  have hval : (aff0 a).toNat = a.toNat % 256 := by
    rw [aff0, show (1#64 <<< 8) - 1#64 = BitVec.ofNat 64 (2 ^ 8 - 1) by decide, BitVec.toNat_and,
      BitVec.toNat_ofNat, Nat.mod_eq_of_lt (by decide), Nat.and_two_pow_sub_one_eq_mod]
  constructor
  · apply BitVec.eq_of_toNat_eq
    rw [BitVec.extractLsb'_toNat, Nat.shiftRight_eq_div_pow]
    simp only [BitVec.toNat_ofNat]
    omega
  · rw [BitVec.extractLsb'_toNat, Nat.shiftRight_eq_div_pow, hval]
    omega

/-- The bits of the value that both controllers write. -/
theorem getLsbD_iccSgi1r {a : BitVec 64} (h0 : aff0 a < 16#64) {i : ℕ} (hi : i < 64) :
    (iccSgi1r a).getLsbD i = (decide (48 ≤ i) && (aff3 a).getLsbD (i - 48) ||
      decide (32 ≤ i) && (aff2 a).getLsbD (i - 32) || decide (24 ≤ i) && (11#64).getLsbD (i - 24) ||
      decide (48 ≤ i) && (aff1 a).getLsbD (i - 48) || decide (i = (aff0 a).toNat)) := by
  have hlt : (aff0 a).toNat < 64 := lt_trans (BitVec.lt_def.mp h0) (by decide)
  have hnot : ∀ k, (!decide (i < k)) = decide (k ≤ i) := fun k => by
    rw [← decide_not, decide_eq_decide, Nat.not_lt]
  rw [iccSgi1r, BitVec.getLsbD_or, BitVec.shiftLeft_eq', getLsbD_one_shiftLeft hlt, BitVec.getLsbD_or,
    BitVec.getLsbD_or, BitVec.getLsbD_or, BitVec.getLsbD_shiftLeft, BitVec.getLsbD_shiftLeft,
    BitVec.getLsbD_shiftLeft, BitVec.getLsbD_shiftLeft, decide_eq_true hi]
  simp only [Bool.true_and, hnot, injectInterruptIntId]

/-- What the processor reads : `aff1` is part of `aff3`. -/
theorem decode_iccSgi1r {a : BitVec 64} (h0 : aff0 a < 16#64) :
    SoftwareInterrupt.decode (iccSgi1r a) = { SoftwareInterrupt.to a with
      aff3 := a.extractLsb' 32 8 ||| a.extractLsb' 8 8
      aff1 := 0 } := by
  have hlt : (aff0 a).toNat < 16 := BitVec.lt_def.mp h0
  have hne : ∀ {i}, 16 ≤ i → decide (i = (aff0 a).toNat) = false := fun hi =>
    decide_eq_false (by omega)
  have hbit := fun {i : ℕ} (hi : i < 64) => getLsbD_iccSgi1r h0 hi
  obtain ⟨hrange, hlist⟩ := extract_of_aff0_lt h0
  simp only [SoftwareInterrupt.decode, SoftwareInterrupt.to, SoftwareInterrupt.mk.injEq, hrange, hlist]
  refine ⟨?_, ?_, ?_, ?_, ?_, ?_, ?_⟩
  · ext i hi
    rw [BitVec.getElem_extractLsb', hbit (by omega), hne (by omega), BitVec.getElem_or,
      BitVec.getElem_extractLsb', BitVec.getElem_extractLsb']
    simp only [getLsbD_aff1, getLsbD_aff2, getLsbD_aff3]
    interval_cases i <;> simp
  · ext i hi
    rw [BitVec.getElem_extractLsb', hbit (by omega), hne (by omega)]
    simp only [getLsbD_aff2]
    interval_cases i <;> simp
  · rw [hbit (by decide), hne (by decide), getLsbD_aff2]
    simp
  · ext i hi
    rw [BitVec.getElem_extractLsb', hbit (by omega), hne (by omega), BitVec.getElem_extractLsb']
    simp only [getLsbD_aff2]
    interval_cases i <;> simp
  · ext i hi
    rw [BitVec.getElem_extractLsb', hbit (by omega), hne (by omega)]
    interval_cases i <;> simp
  · ext i hi
    rw [BitVec.getElem_extractLsb', hbit (by omega), hne (by omega)]
    interval_cases i <;> simp
  · ext i hi
    rw [BitVec.getElem_extractLsb', hbit (by omega), ← BitVec.getLsbD_eq_getElem,
      getLsbD_one_shiftLeft hlt]
    interval_cases i <;> simp

/-- The right CPU is interrupted if `aff1` is 0. -/
theorem decode_iccSgi1r_iff {a : BitVec 64} (h0 : aff0 a < 16#64) :
    SoftwareInterrupt.decode (iccSgi1r a) = SoftwareInterrupt.to a ↔ a.extractLsb' 8 8 = 0#8 := by
  rw [decode_iccSgi1r h0]
  constructor
  · intro h
    exact (congrArg SoftwareInterrupt.aff1 h).symm
  · intro h
    rw [h, BitVec.or_zero, SoftwareInterrupt.to, h]
    rfl

/-- What an SGI for `x` has to be, to interrupt the CPU that `a` names. -/
theorem decode_iccSgi1r_eq_iff {x a : BitVec 64} (h0 : aff0 x < 16#64) :
    SoftwareInterrupt.decode (iccSgi1r x) = .to a ↔ aff3 x ||| aff1 x = aff3 a ∧ aff2 x = aff2 a ∧
      aff1 a = 0#64 ∧ aff0 x = aff0 a := by
  have h3 : aff3 x ||| aff1 x = aff3 a ↔
      x.extractLsb' 32 8 ||| x.extractLsb' 8 8 = a.extractLsb' 32 8 := by
    rw [aff3_eq, aff1_eq, aff3_eq, ← BitVec.setWidth_or, setWidth_eq_iff (by decide)]
  have h1 : aff1 a = 0#64 ↔ 0#8 = a.extractLsb' 8 8 := by
    rw [aff1_eq, show 0#64 = (0#8).setWidth 64 from rfl, setWidth_eq_iff (by decide), eq_comm]
  rw [decode_iccSgi1r h0, h3, h1, aff2_eq, aff2_eq, setWidth_eq_iff (by decide), aff0_eq_iff]
  simp only [SoftwareInterrupt.to, SoftwareInterrupt.mk.injEq]
  constructor
  · rintro ⟨e3, er, -, e2, -, e1, el⟩
    exact ⟨e3, e2, e1, er, BitVec.eq_of_toNat_eq (one_shiftLeft_inj (by omega) (by omega) el)⟩
  · rintro ⟨e3, e2, e1, er, e0⟩
    exact ⟨e3, er, trivial, e2, trivial, e1, by rw [e0]⟩

/-! ## The same CPU -/

theorem iccSgi1r_congr {a b : BitVec 64} (h : sameAffinity a b) : iccSgi1r a = iccSgi1r b := by
  obtain ⟨h3, h2, h1, h0⟩ := h
  rw [iccSgi1r, iccSgi1r, h3, h2, h1, h0]

/-- The affinity of a CPU has the fields of its `MPIDR_EL1`. -/
theorem sameAffinity_mpidrToAffinity (m : BitVec 64) : sameAffinity (mpidrToAffinity m) m := by
  have hmask : ((1#64 <<< 31) ||| (1#64 <<< 30)) &&& ((1#64 <<< 24) - 1#64) = 0#64 := by decide
  have hkeep : ∀ {mask : BitVec 64}, ((1#64 <<< 31) ||| (1#64 <<< 30)) &&& mask = 0#64 →
      mpidrToAffinity m &&& mask = m &&& mask := fun h => and_not_and_of_disjoint m h
  have hbit : ∀ {i : ℕ}, i < 64 → i ≠ 30 → i ≠ 31 → (mpidrToAffinity m).getLsbD i = m.getLsbD i := by
    intro i hi h30 h31
    rw [mpidrToAffinity, BitVec.getLsbD_and, BitVec.getLsbD_not, BitVec.getLsbD_or,
      getLsbD_one_shiftLeft (by decide), getLsbD_one_shiftLeft (by decide)]
    simp [hi, h30, h31]
  refine ⟨?_, ?_, ?_, ?_⟩
  · ext i hi
    rw [← BitVec.getLsbD_eq_getElem, ← BitVec.getLsbD_eq_getElem, getLsbD_aff3, getLsbD_aff3]
    by_cases h8 : i < 8
    · rw [hbit (by omega) (by omega) (by omega)]
    · simp [h8]
  · rw [aff2, aff2, hkeep (by decide)]
  · rw [aff1, aff1, hkeep (by decide)]
  · rw [aff0, aff0, hkeep (by decide)]

namespace GicRedistributor

/-- The frame at `baseAddress` is the emulated redistributor of the CPU with this `MPIDR_EL1`. -/
def FrameAt (mmio : ℕ → Exec (BitVec 64)) (baseAddress : ℕ) (mpidrEl1 : BitVec 64) : Prop :=
  mmio (baseAddress + gicrTyper) = (GicRedistributorMmio.new mpidrEl1).read gicrTyper 64

theorem FrameAt.getAffinity {mmio : ℕ → Exec (BitVec 64)} {baseAddress : ℕ} {mpidrEl1 : BitVec 64}
    (h : FrameAt mmio baseAddress mpidrEl1) (hlt : baseAddress + gicrTyper < 2 ^ 64) :
    getAffinity mmio baseAddress = .ok (getPackedAffinity mpidrEl1) := by
  have hread : (GicRedistributorMmio.new mpidrEl1).read gicrTyper 64 =
      .ok (GicRedistributorMmio.new mpidrEl1).generateTyper := by
    rw [GicRedistributorMmio.read, if_neg (by decide), if_pos (by decide)]
    rfl
  rw [GicRedistributor.getAffinity, checkedAdd_of_lt hlt, Exec.ok_bind, h, hread, Exec.ok_bind,
    packed_generateTyper]
  rfl

/-- A CPU finds its redistributor, if no frame before it has the same affinity. -/
theorem getSelfRedistributor_eq {mmio : ℕ → Exec (BitVec 64)} {mpidrs : ℕ → BitVec 64}
    {baseAddress length k : ℕ}
    (hframe : ∀ j ≤ k, FrameAt mmio (baseAddress + j * gicrMmioSize) (mpidrs j))
    (hother : ∀ j < k, getPackedAffinity (mpidrs j) ≠ getPackedAffinity (mpidrs k))
    (hend : (k + 1) * gicrMmioSize ≤ length) (hlt : baseAddress + length < 2 ^ 64) :
    getSelfRedistributor mmio (mpidrs k) baseAddress length =
      .ok (.ok (baseAddress + k * gicrMmioSize)) := by
  have hsize : gicrMmioSize = 0x20000 := rfl
  have htyper : gicrTyper = 8 := rfl
  have hstep : ∀ j ≤ k, selfStep mmio (getPackedAffinity (mpidrs k)) (baseAddress + length)
      (baseAddress + j * gicrMmioSize) =
      if getPackedAffinity (mpidrs j) = getPackedAffinity (mpidrs k) then
        .ok (.done (.ok (baseAddress + j * gicrMmioSize)))
      else .ok (.next (baseAddress + (j + 1) * gicrMmioSize)) := by
    intro j hj
    have hjk : (j + 1) * gicrMmioSize ≤ (k + 1) * gicrMmioSize := Nat.mul_le_mul_right _ (by omega)
    rw [Nat.succ_mul] at hjk
    rw [selfStep, if_neg (by omega), (hframe j hj).getAffinity (by omega), Exec.ok_bind,
      checkedAdd_of_lt (by omega), Exec.ok_bind, Nat.succ_mul, Nat.add_assoc]
    split_ifs <;> rfl
  rw [getSelfRedistributor, checkedAdd_of_lt hlt, Exec.ok_bind]
  have hk : k < 2 ^ 64 := by
    rw [hsize] at hend
    omega
  have hnext : ∀ j, 0 ≤ j → j < 0 + k →
      selfStep mmio (getPackedAffinity (mpidrs k)) (baseAddress + length)
        (baseAddress + j * gicrMmioSize) = .ok (.next (baseAddress + (j + 1) * gicrMmioSize)) :=
    fun j _ hj => by rw [hstep j (by omega), if_neg (hother j (by omega))]
  have hdone : selfStep mmio (getPackedAffinity (mpidrs k)) (baseAddress + length)
      (baseAddress + (0 + k) * gicrMmioSize) = .ok (.done (.ok (baseAddress + k * gicrMmioSize))) := by
    rw [Nat.zero_add, hstep k le_rfl, if_pos rfl]
  simpa using loop_of_steps (fun j => baseAddress + j * gicrMmioSize) k 0 (2 ^ 64) hnext hdone hk

end GicRedistributor

/-! ## The result -/

/-- The layouts agree for the CPU with this `MPIDR_EL1`. -/
structure EncodingsAgree (mpidrEl1 : BitVec 64) : Prop where
  packed : ∀ mmio baseAddress, GicRedistributor.FrameAt mmio baseAddress mpidrEl1 →
    baseAddress + gicrTyper < 2 ^ 64 →
    GicRedistributor.getAffinity mmio baseAddress = .ok (getPackedAffinity mpidrEl1)
  found : ∀ (mmio : ℕ → Exec (BitVec 64)) (mpidrs : ℕ → BitVec 64) (baseAddress length k : ℕ),
    mpidrs k = mpidrEl1 → (k + 1) * GicRedistributor.gicrMmioSize ≤ length →
    baseAddress + length < 2 ^ 64 →
    (∀ j ≤ k, GicRedistributor.FrameAt mmio (baseAddress + j * GicRedistributor.gicrMmioSize)
      (mpidrs j)) →
    (∀ j < k, getPackedAffinity (mpidrs j) ≠ getPackedAffinity mpidrEl1) →
    GicRedistributor.getSelfRedistributor mmio mpidrEl1 baseAddress length =
      .ok (.ok (baseAddress + k * GicRedistributor.gicrMmioSize))
  distributor : ∀ (d d' : GicDistributorMmio) (cpu cpu' : Cpu) (n : ℕ) (p : Option (BitVec 32))
    (v : BitVec 64), d.triggerInterrupt cpu n p = .ok (d', cpu') →
    sameAffinity (d.router.reg n) mpidrEl1 → cpu'.iccSgi1rEl1 = v :: cpu.iccSgi1rEl1 →
    SoftwareInterrupt.decode v = .to mpidrEl1
  redistributor : ∀ (r r' : GicRedistributorMmio) (cpu cpu' : Cpu) (n : ℕ)
    (p : Option (BitVec 32)) (v : BitVec 64), r.triggerInterrupt cpu n p = .ok (r', cpu') →
    r.affinity = mpidrToAffinity mpidrEl1 → cpu'.iccSgi1rEl1 = v :: cpu.iccSgi1rEl1 →
    SoftwareInterrupt.decode v = .to mpidrEl1

/-- What the distributor sends for a remote CPU. -/
theorem GicDistributorMmio.sent_eq {d d' : GicDistributorMmio} {cpu cpu' : Cpu} {n : ℕ}
    {p : Option (BitVec 32)} {v : BitVec 64} (h : d.triggerInterrupt cpu n p = .ok (d', cpu'))
    (hv : cpu'.iccSgi1rEl1 = v :: cpu.iccSgi1rEl1) : v = iccSgi1r (d.router.reg n) := by
  have hself : cpu.iccSgi1rEl1 ≠ v :: cpu.iccSgi1rEl1 := fun h0 => List.cons_ne_self _ _ h0.symm
  obtain ⟨-, -, rfl⟩ | ⟨-, -, -, rfl⟩ | ⟨-, -, -, -, rfl⟩ | ⟨-, -, -, -, rfl⟩ := triggerInterrupt_cases h
  · exact absurd hv hself
  · exact absurd hv hself
  · exact absurd hv hself
  · exact (List.cons.inj hv).1.symm

/-- What the redistributor sends for a remote CPU. -/
theorem GicRedistributorMmio.sent_eq {r r' : GicRedistributorMmio} {cpu cpu' : Cpu} {n : ℕ}
    {p : Option (BitVec 32)} {v : BitVec 64} (h : r.triggerInterrupt cpu n p = .ok (r', cpu'))
    (hv : cpu'.iccSgi1rEl1 = v :: cpu.iccSgi1rEl1) : v = iccSgi1r r.affinity := by
  have hself : cpu.iccSgi1rEl1 ≠ v :: cpu.iccSgi1rEl1 := fun h0 => List.cons_ne_self _ _ h0.symm
  obtain ⟨-, -, rfl⟩ | ⟨-, -, -, rfl⟩ | ⟨-, -, -, -, rfl⟩ | ⟨-, -, -, -, rfl⟩ := triggerInterrupt_cases h
  · exact absurd hv hself
  · exact absurd hv hself
  · exact absurd hv hself
  · exact (List.cons.inj hv).1.symm

/-- A distributor that routes INTID 32 to the CPU that `router` names. -/
def routedDistributor (router : BitVec 64) : GicDistributorMmio :=
  { GicDistributorMmio.new with
    ctlr := gicdCtlrAreS ||| gicdCtlrEnableGrp1ns
    enable := .fill 1
    router := .fill router }

/-- It interrupts that CPU. -/
theorem routedDistributor_sends {router : BitVec 64} {cpu : Cpu} (h0 : aff0 router < 16#64)
    (hremote : ¬sameAffinity router cpu.mpidrEl1) :
    ∃ d', (routedDistributor router).triggerInterrupt cpu 32 none =
      .ok (d', { cpu with iccSgi1rEl1 := iccSgi1r router :: cpu.iccSgi1rEl1 }) := by
  have henable : (routedDistributor router).enable.bit 32 = true :=
    show (Bank.fill 1 : Bank 32 32).bit 32 = true by decide
  have hmodifier : (routedDistributor router).groupModifier.bit 32 = false :=
    show (Bank.fill 0 : Bank 32 32).bit 32 = false by decide
  have hctlr : (routedDistributor router).ctlr = gicdCtlrAreS ||| gicdCtlrEnableGrp1ns := rfl
  have hrouter : (routedDistributor router).router.reg 32 = router := rfl
  rw [GicDistributorMmio.triggerInterrupt_eq (by decide), hctlr, if_neg (by decide),
    if_neg (by rw [henable, hmodifier]; decide), if_neg (by decide), if_neg (by decide), hrouter,
    if_neg hremote, if_pos h0]
  exact ⟨_, rfl⟩

/-- The layouts agree for the CPUs whose `aff1` is 0. -/
theorem encodingsAgree_iff (mpidrEl1 : BitVec 64) (h0 : aff0 mpidrEl1 < 16#64) :
    EncodingsAgree mpidrEl1 ↔ mpidrEl1.extractLsb' 8 8 = 0#8 := by
  constructor
  · intro h
    -- the CPU that sends has another `aff0`
    let cpu : Cpu := ⟨mpidrEl1 ^^^ 1#64, 0, fun _ => 0#64, []⟩
    have hremote : ¬sameAffinity mpidrEl1 cpu.mpidrEl1 := by
      rintro ⟨-, -, -, hsame⟩
      have hbit := congrArg (BitVec.getLsbD · 0) hsame
      simp only [getLsbD_aff0, cpu, BitVec.getLsbD_xor] at hbit
      simp at hbit
    obtain ⟨d', hsend⟩ := routedDistributor_sends h0 hremote
    have hsgi := h.distributor _ _ _ _ _ _ _ hsend ⟨rfl, rfl, rfl, rfl⟩ rfl
    exact (decode_iccSgi1r_iff h0).mp hsgi
  · intro h
    have hdecode := (decode_iccSgi1r_iff h0).mpr h
    refine ⟨fun _ _ hframe hlt => hframe.getAffinity hlt, ?_, ?_, ?_⟩
    · rintro mmio mpidrs baseAddress length k rfl hend hlt hframe hother
      exact GicRedistributor.getSelfRedistributor_eq hframe hother hend hlt
    · intro d d' cpu cpu' n p v hsend hsame hv
      rw [GicDistributorMmio.sent_eq hsend hv, iccSgi1r_congr hsame, hdecode]
    · intro r r' cpu cpu' n p v hsend haff hv
      rw [GicRedistributorMmio.sent_eq hsend hv, haff,
        iccSgi1r_congr (sameAffinity_mpidrToAffinity mpidrEl1), hdecode]

/-- A CPU of the second cluster of a system, and one of the first. -/
theorem encodingsAgree_iff_cluster :
    ¬EncodingsAgree 0x80000103#64 ∧ EncodingsAgree 0x80000003#64 :=
  ⟨fun h => absurd ((encodingsAgree_iff 0x80000103#64 (by decide)).mp h) (by decide),
    (encodingsAgree_iff 0x80000003#64 (by decide)).mpr (by decide)⟩

/-- An interrupt for `aff1` = 1 goes to `aff3` = 1. -/
theorem not_encodingsAgree : ∃ (d : GicDistributorMmio) (v : BitVec 64),
    (routedDistributor 0x100#64).triggerInterrupt ⟨0, 0, fun _ => 0#64, []⟩ 32 none =
      .ok (d, ⟨0, 0, fun _ => 0#64, [v]⟩) ∧
    SoftwareInterrupt.decode v = ⟨1, 0, false, 0, 11, 0, 1⟩ ∧
    SoftwareInterrupt.decode v ≠ .to 0x100#64 := by
  obtain ⟨d', hsend⟩ := routedDistributor_sends (show aff0 0x100#64 < 16#64 by decide)
    (show ¬sameAffinity 0x100#64 (⟨0, 0, fun _ => 0#64, []⟩ : Cpu).mpidrEl1 by decide)
  exact ⟨d', _, hsend, by decide, by decide⟩

end MiniVisor
