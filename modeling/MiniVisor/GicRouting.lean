import MiniVisor.GicAffinity
import MiniVisor.GicStale

/-!
# Routing of shared interrupts

The guest routes INTID `n` with `GICD_IROUTER<n>`, the register at `0x6000 + 8 * n`. `GICD_IROUTER0`
in `mmio/gicv3.rs` is `0x6100`, which is the register of INTID 32, and `write` counts from there,
while `trigger_interrupt` takes the entry with the index `n`. So `n` goes where the register of
`n + 32` says, and `followsRouter_iff` is when this is what the register of `n` says. -/

namespace MiniVisor

open Machine Vgic

/-- The offset of `GICD_IROUTER<m>`. -/
def irouterOffset (m : ℕ) : ℕ :=
  0x6000 + 8 * m

/-- The guest writes routing registers, one after the other. -/
def writeRouters (cpu : Cpu) : List (ℕ × BitVec 64) → GicDistributorMmio →
    Exec (GicDistributorMmio × Cpu)
  | [], d => .ok (d, cpu)
  | (m, value) :: writes, d => do
    let s ← d.write cpu (irouterOffset m) 64 value
    writeRouters s.2 writes s.1

/-- The value last written to the register of `n`, and `old` if there is none. -/
def lastWritten (n : ℕ) : List (ℕ × BitVec 64) → BitVec 64 → BitVec 64
  | [], old => old
  | (m, value) :: writes, old => lastWritten n writes (if m = n then value else old)

namespace GicDistributorMmio

/-- Triggering `n` makes it pending and hands it to the CPU that `a` names : to the list registers if this
is the current CPU, with `mpidrEl1`, and else to the queue for that CPU, which is interrupted. -/
def FollowsRouter (d : GicDistributorMmio) (mpidrEl1 : BitVec 64) (n : ℕ) (a : BitVec 64) : Prop :=
  ∀ (cpu : Cpu) (p : Option (BitVec 32)), cpu.mpidrEl1 = mpidrEl1 →
    (sameAffinity a mpidrEl1 → d.triggerInterrupt cpu n p = .ok (d.setPending n,
      { cpu with lr := addVirtualInterrupt cpu.ichVtrEl2 cpu.lr (d.listEntry n p) })) ∧
    (¬sameAffinity a mpidrEl1 → ∃ v, SoftwareInterrupt.decode v = .to a ∧
      d.triggerInterrupt cpu n p = .ok
        ({ d.setPending n with toInjectInterrupt := d.toInjectInterrupt ++ [d.listEntry n p] },
          { cpu with iccSgi1rEl1 := v :: cpu.iccSgi1rEl1 }))

/-- The two values name the same CPU for the CPU with `mpidrEl1` : both name itself, or neither does and an
SGI for `x` is one for `a`. `aff1` is sent as a part of `aff3`. -/
def SameTarget (mpidrEl1 x a : BitVec 64) : Prop :=
  (sameAffinity x mpidrEl1 ↔ sameAffinity a mpidrEl1) ∧
    (¬sameAffinity a mpidrEl1 → aff0 x < 16#64 ∧ aff3 x ||| aff1 x = aff3 a ∧ aff2 x = aff2 a ∧
      aff1 a = 0#64 ∧ aff0 x = aff0 a)

instance (mpidrEl1 x a : BitVec 64) : Decidable (SameTarget mpidrEl1 x a) :=
  inferInstanceAs (Decidable (_ ∧ _))

variable {d d' : GicDistributorMmio} {cpu : Cpu} {n m : ℕ} {value : BitVec 64}

/-! ## The writes -/

/-- A write to a routing register. Those of the private interrupts do not exist. -/
theorem write_irouter (hm : m ≤ 1019) : d.write cpu (irouterOffset m) 64 value =
    .ok (if 32 ≤ m then { d with router := d.router.update (m - 32) value } else d, cpu) := by
  have narrow {p : Prop} : ¬(p ∧ 64 = 32) := fun h => absurd h.2 (by decide)
  have hrouter0 : gicdIrouter0 = 0x6100 := rfl
  have hrouter1019 : gicdIrouter1019 = 0x7FD8 := rfl
  have hpriority : gicdIpriorityr254 = 0x07F8 := rfl
  unfold write
  dsimp only
  rw [if_neg narrow, if_neg narrow, if_neg narrow, if_neg narrow, if_neg narrow, if_neg narrow,
    if_neg narrow, if_neg narrow,
    if_neg (by rw [irouterOffset, hpriority]; omega), if_neg narrow, if_neg narrow]
  by_cases h32 : 32 ≤ m
  · have hindex : (irouterOffset m - gicdIrouter0) / 8 = m - 32 := by
      rw [irouterOffset, hrouter0]
      omega
    have hwindow : inWindow gicdIrouter0 gicdIrouter1019 (irouterOffset m) := by
      rw [inWindow, irouterOffset, hrouter0, hrouter1019]
      omega
    rw [if_pos ⟨hwindow, rfl⟩, hindex, Bank.set_of_lt (by omega), Exec.ok_bind, if_pos h32]
    rfl
  · have hwindow : ¬inWindow gicdIrouter0 gicdIrouter1019 (irouterOffset m) := by
      rw [inWindow, irouterOffset, hrouter0, hrouter1019]
      omega
    rw [if_neg fun h => hwindow h.1, if_neg h32]
    rfl

/-- The writes change the routing registers only, each to the value last written. -/
theorem writeRouters_spec (cpu : Cpu) : ∀ (writes : List (ℕ × BitVec 64)) (d : GicDistributorMmio),
    (∀ q ∈ writes, q.1 ≤ 1019) → ∃ router : Bank 1020 64,
      writeRouters cpu writes d = .ok ({ d with router }, cpu) ∧
        ∀ i, router.reg i = lastWritten (i + 32) writes (d.router.reg i)
  | [], d, _ => ⟨d.router, rfl, fun _ => rfl⟩
  | (m, value) :: writes, d, h => by
    have hm : m ≤ 1019 := h (m, value) (by simp)
    have hrest : ∀ q ∈ writes, q.1 ≤ 1019 := fun q hq => h q (List.mem_cons_of_mem _ hq)
    by_cases h32 : 32 ≤ m
    · obtain ⟨router, hwrites, hlast⟩ := writeRouters_spec cpu writes
        { d with router := d.router.update (m - 32) value } hrest
      refine ⟨router, ?_, fun i => ?_⟩
      · rw [writeRouters, write_irouter hm, if_pos h32, Exec.ok_bind]
        exact hwrites
      · rw [hlast i, lastWritten]
        by_cases hi : m = i + 32
        · rw [if_pos hi, show i = m - 32 by omega]
          simp only [Bank.update_reg_self]
        · rw [if_neg hi]
          simp only [Bank.update_reg_of_ne d.router (show i ≠ m - 32 by omega)]
    · obtain ⟨router, hwrites, hlast⟩ := writeRouters_spec cpu writes d hrest
      refine ⟨router, ?_, fun i => ?_⟩
      · rw [writeRouters, write_irouter hm, if_neg h32, Exec.ok_bind]
        exact hwrites
      · rw [hlast i, lastWritten, if_neg (by omega)]

/-! ## Where an interrupt goes -/

/-- An entry for a shared interrupt changes an empty list register. -/
theorem addVirtualInterrupt_ne {entry : BitVec 64} (h : vIntId entry ≠ 0#64) :
    addVirtualInterrupt 0 (fun _ => 0#64) entry ≠ fun _ => 0#64 := by
  have hslot : slotFor 0 (fun _ => 0#64) entry = some 0 := by
    have hrange : List.range (supportedLrn 0) = [0] := by decide
    rw [slotFor, hrange, List.find?_cons_of_pos]
    simp
  rw [addVirtualInterrupt, hslot]
  intro heq
  have h0 := congrFun heq 0
  simp only [isInactive_zero, if_true, Function.update_self] at h0
  exact h (by rw [h0]; decide)

/-- An enabled interrupt follows the register that is stored with its index. -/
theorem followsRouter_stored {mpidrEl1 : BitVec 64} (h32 : 32 ≤ n) (hn : n < 1020)
    (henable : d.enable.bit n = true) (hgroup : d.ctlr &&& gicdCtlrEnableGrp1ns ≠ 0#32)
    (a : BitVec 64) :
    d.FollowsRouter mpidrEl1 n a ↔ d.groupModifier.bit n = false ∧ d.ctlr &&& gicdCtlrAreS ≠ 0#32 ∧
      SameTarget mpidrEl1 (d.router.reg n) a := by
  have heq : ∀ (cpu : Cpu) p, d.triggerInterrupt cpu n p = _ :=
    fun _ => triggerInterrupt_eq (show n < 1024 by omega)
  simp only [if_neg hgroup, henable, Bool.true_eq_false, false_or,
    if_neg (show ¬1020 ≤ n by omega)] at heq
  constructor
  · intro h
    -- With an empty list register, an injection is seen.
    let cpu : Cpu := ⟨mpidrEl1, 0, fun _ => 0#64, []⟩
    have hid : vIntId (d.listEntry n none) ≠ 0#64 := by
      rw [listEntry, vIntId_createListRegisterEntry]
      intro h0
      have := congrArg BitVec.toNat h0
      simp only [BitVec.toNat_setWidth, BitVec.toNat_ofNat] at this
      omega
    have hlr : addVirtualInterrupt cpu.ichVtrEl2 cpu.lr (d.listEntry n none) ≠ cpu.lr :=
      addVirtualInterrupt_ne hid
    obtain ⟨hhere, hother⟩ := h cpu none rfl
    have hrun := heq cpu none
    -- Something is done, so no test before the routing fails.
    have hquiet : d.triggerInterrupt cpu n none ≠ .ok (d.setPending n, cpu) := fun hq => by
      by_cases hlocal : sameAffinity a mpidrEl1
      · exact hlr (congrArg (fun s => s.2.lr) (Except.ok.inj ((hhere hlocal).symm.trans hq)))
      · obtain ⟨v, -, hv⟩ := hother hlocal
        exact List.cons_ne_nil v []
          (congrArg (fun s => s.2.iccSgi1rEl1) (Except.ok.inj (hv.symm.trans hq)))
    have hmodifier : d.groupModifier.bit n = false :=
      Bool.eq_false_iff.mpr fun hc => hquiet (hrun.trans (if_pos hc))
    rw [if_neg (by simp [hmodifier])] at hrun
    have hare : d.ctlr &&& gicdCtlrAreS ≠ 0#32 := fun hc => hquiet (hrun.trans (if_pos hc))
    rw [if_neg hare] at hrun
    refine ⟨hmodifier, hare, ?_⟩
    by_cases hx : sameAffinity (d.router.reg n) mpidrEl1
    · rw [if_pos hx] at hrun
      by_cases hlocal : sameAffinity a mpidrEl1
      · exact ⟨iff_of_true hx hlocal, fun hc => absurd hlocal hc⟩
      · obtain ⟨v, -, hv⟩ := hother hlocal
        exact absurd (congrArg (fun s => s.2.iccSgi1rEl1) (Except.ok.inj (hv.symm.trans hrun)))
          (List.cons_ne_nil v [])
    · rw [if_neg hx] at hrun
      by_cases h0 : aff0 (d.router.reg n) < 16#64
      · rw [if_pos h0] at hrun
        have hlocal : ¬sameAffinity a mpidrEl1 := fun hc =>
          hlr (congrArg (fun s => s.2.lr) (Except.ok.inj ((hhere hc).symm.trans hrun)))
        obtain ⟨v, hdecode, hv⟩ := hother hlocal
        have hsent : [v] = [iccSgi1r (d.router.reg n)] :=
          congrArg (fun s => s.2.iccSgi1rEl1) (Except.ok.inj (hv.symm.trans hrun))
        rw [(List.cons.inj hsent).1] at hdecode
        exact ⟨iff_of_false hx hlocal, fun _ => ⟨h0, (decode_iccSgi1r_eq_iff h0).mp hdecode⟩⟩
      · rw [if_neg h0] at hrun
        by_cases hlocal : sameAffinity a mpidrEl1
        · cases (hhere hlocal).symm.trans hrun
        · obtain ⟨v, -, hv⟩ := hother hlocal
          cases hv.symm.trans hrun
  · rintro ⟨hmodifier, hare, hsame, hremote⟩ cpu p rfl
    simp only [hmodifier, Bool.false_eq_true, if_false, if_neg hare] at heq
    constructor
    · intro hlocal
      rw [heq, if_pos (hsame.mpr hlocal)]
    · intro hother
      obtain ⟨h0, htarget⟩ := hremote hother
      refine ⟨_, (decode_iccSgi1r_eq_iff h0).mpr htarget, ?_⟩
      rw [heq, if_neg (mt hsame.mp hother), if_pos h0]

/-! ## The result -/

/-- After any writes to the routing registers, an interrupt that is enabled goes where its register
says, if and only if the value that was stored with its index, which is the register of `n + 32`,
names the same CPU, and nothing else keeps it from being routed. -/
theorem followsRouter_iff (d : GicDistributorMmio) (cpu : Cpu) (mpidrEl1 : BitVec 64)
    (writes : List (ℕ × BitVec 64)) (n : ℕ) (hwrites : ∀ q ∈ writes, q.1 ≤ 1019) (h32 : 32 ≤ n)
    (hn : n ≤ 1019) (henable : d.enable.bit n = true)
    (hgroup : d.ctlr &&& gicdCtlrEnableGrp1ns ≠ 0#32) :
    ∃ d', writeRouters cpu writes d = .ok (d', cpu) ∧
      (d'.FollowsRouter mpidrEl1 n (lastWritten n writes (d.router.reg (n - 32))) ↔
        d.groupModifier.bit n = false ∧ d.ctlr &&& gicdCtlrAreS ≠ 0#32 ∧
          SameTarget mpidrEl1 (lastWritten (n + 32) writes (d.router.reg n))
            (lastWritten n writes (d.router.reg (n - 32)))) := by
  obtain ⟨router, hrun, hlast⟩ := writeRouters_spec cpu writes d hwrites
  refine ⟨{ d with router }, hrun, ?_⟩
  rw [← hlast n]
  exact followsRouter_stored (d := { d with router }) h32 (by omega) henable hgroup _

/-- INTID 32 follows its register if the one of INTID 64 is written as well. -/
theorem followsRouter_iff_both : ∃ d',
    writeRouters ⟨0, 0, fun _ => 0#64, []⟩ [(32, 1#64), (64, 1#64)] (routedDistributor 0#64) =
      .ok (d', ⟨0, 0, fun _ => 0#64, []⟩) ∧ d'.FollowsRouter 0#64 32 1#64 := by
  have henable : (routedDistributor 0#64).enable.bit 32 = true :=
    show (Bank.fill 1 : Bank 32 32).bit 32 = true by decide
  have hmodifier : (routedDistributor 0#64).groupModifier.bit 32 = false :=
    show (Bank.fill 0 : Bank 32 32).bit 32 = false by decide
  obtain ⟨d', hrun, hfollows⟩ := followsRouter_iff (routedDistributor 0#64)
    ⟨0, 0, fun _ => 0#64, []⟩ 0#64 [(32, 1#64), (64, 1#64)] 32 (by decide) (by decide) (by decide)
    henable (by decide)
  refine ⟨d', hrun, hfollows.mpr ⟨hmodifier, by decide, ?_⟩⟩
  decide

/-- The guest routes INTID 32 to the CPU with affinity 1, and it is injected on the CPU with affinity 0. -/
theorem not_followsRouter : ∃ d',
    writeRouters ⟨0, 0, fun _ => 0#64, []⟩ [(32, 1#64)] (routedDistributor 0#64) =
      .ok (d', ⟨0, 0, fun _ => 0#64, []⟩) ∧
    d'.triggerInterrupt ⟨0, 0, fun _ => 0#64, []⟩ 32 none = .ok (d'.setPending 32,
      ⟨0, 0, addVirtualInterrupt 0 (fun _ => 0#64) (d'.listEntry 32 none), []⟩) ∧
    ¬d'.FollowsRouter 0#64 32 1#64 := by
  have henable : (routedDistributor 0#64).enable.bit 32 = true :=
    show (Bank.fill 1 : Bank 32 32).bit 32 = true by decide
  have hmodifier : (routedDistributor 0#64).groupModifier.bit 32 = false :=
    show (Bank.fill 0 : Bank 32 32).bit 32 = false by decide
  have hgroup : (routedDistributor 0#64).ctlr &&& gicdCtlrEnableGrp1ns ≠ 0#32 := by decide
  have hare : (routedDistributor 0#64).ctlr &&& gicdCtlrAreS ≠ 0#32 := by decide
  obtain ⟨router, hrun, hlast⟩ := writeRouters_spec ⟨0, 0, fun _ => 0#64, []⟩ [(32, 1#64)]
    (routedDistributor 0#64) (by decide)
  have hrouter : router.reg 32 = 0#64 := (hlast 32).trans (by decide)
  -- The register that is stored with index 32 names the current CPU.
  obtain ⟨hhere, -⟩ := (followsRouter_stored (d := { routedDistributor 0#64 with router })
    (by decide) (by decide) henable hgroup 0#64).mpr
      ⟨hmodifier, hare, by rw [hrouter]; decide⟩ ⟨0, 0, fun _ => 0#64, []⟩ none rfl
  refine ⟨_, hrun, hhere (by decide), fun h => ?_⟩
  have htarget := ((followsRouter_stored (d := { routedDistributor 0#64 with router })
    (by decide) (by decide) henable hgroup 1#64).mp h).2.2
  rw [hrouter] at htarget
  exact absurd htarget (by decide)

end GicDistributorMmio

end MiniVisor
