import MiniVisor.GicRun

/-!
# Completed interrupts leave no trace

The emulated pending bit of an interrupt is cleared by the maintenance handler, which finds the
INTID in the list register that held the interrupt. `NoStale` says that this happens for every
interrupt the guest has completed, once the processor reports no completion any more.

It fails in two ways. An entry with a physical INTID has no maintenance interrupt, so the pending
bit that `trigger_interrupt` has set stays. And `add_virtual_interrupt` takes the first inactive
register, which may be one whose completion is not yet handled. `KeepsCompletions` excludes both,
and `gicRun_noStale` is the result for the runs whose events meet it. The invariant (`Tracked`) is
that each completed interrupt with a bit left still has a list register with its INTID whose
completion is, or will be, reported. -/

namespace MiniVisor

open Machine Vgic

namespace Vgic

/-- The completion of the interrupt of a register is reported by a maintenance interrupt. -/
def isReporting (r : BitVec 64) : Bool :=
  (r &&& ichLrnEl2Eoi != 0#64) && (r &&& ichLrnEl2Hw == 0#64)

theorem eoiReported_eq (r : BitVec 64) : eoiReported r = (isInactive r && isReporting r) :=
  Bool.and_assoc ..

theorem isReporting_eq (r : BitVec 64) : isReporting r = (r.getLsbD 41 && !r.getLsbD 61) := by
  have h41 : (r &&& ichLrnEl2Eoi != 0#64) = r.getLsbD 41 := by
    rw [Bool.eq_iff_iff, bne_iff_ne, ne_eq,
      show ichLrnEl2Eoi = BitVec.twoPow 64 41 by decide, and_twoPow_eq_zero r (by decide),
      Bool.not_eq_false]
  have h61 : (r &&& ichLrnEl2Hw == 0#64) = !r.getLsbD 61 := by
    rw [Bool.eq_iff_iff, beq_iff_eq,
      show ichLrnEl2Hw = BitVec.twoPow 64 61 by decide, and_twoPow_eq_zero r (by decide),
      Bool.not_eq_true']
  rw [isReporting, h41, h61]

/-- Changing the status keeps how the completion is reported. -/
theorem isReporting_setStatus (r s : BitVec 64) (h41 : s.getLsbD 41 = false)
    (h61 : s.getLsbD 61 = false) :
    isReporting ((r &&& ~~~ichLrnEl2Status) ||| s) = isReporting r := by
  have h : ∀ k, (~~~ichLrnEl2Status).getLsbD k = true → s.getLsbD k = false →
      ((r &&& ~~~ichLrnEl2Status) ||| s).getLsbD k = r.getLsbD k := by
    intro k hk hs
    rw [BitVec.getLsbD_or, BitVec.getLsbD_and, hk, hs, Bool.and_true, Bool.or_false]
  rw [isReporting_eq, isReporting_eq, h 41 (by decide) h41, h 61 (by decide) h61]

@[simp] theorem isReporting_or_pending (r : BitVec 64) :
    isReporting (r ||| ichLrnEl2StatusPending) = isReporting r := by
  have h : ∀ k, ichLrnEl2StatusPending.getLsbD k = false →
      (r ||| ichLrnEl2StatusPending).getLsbD k = r.getLsbD k := by
    intro k hk
    rw [BitVec.getLsbD_or, hk, Bool.or_false]
  rw [isReporting_eq, isReporting_eq, h 41 (by decide), h 61 (by decide)]

@[simp] theorem isReporting_acknowledge (r : BitVec 64) :
    isReporting (acknowledge r) = isReporting r := by
  unfold acknowledge
  split_ifs
  · exact isReporting_setStatus _ _ (by decide) (by decide)
  · rfl

@[simp] theorem isReporting_endOfInterrupt (r : BitVec 64) :
    isReporting (endOfInterrupt r) = isReporting r := by
  unfold endOfInterrupt
  split_ifs
  · simpa using isReporting_setStatus r 0 (by decide) (by decide)
  · exact isReporting_setStatus _ _ (by decide) (by decide)
  · rfl

/-- An entry without a physical INTID has a maintenance interrupt. Its group is one bit, its priority
eight. -/
theorem isReporting_createListRegisterEntry (intId x y : BitVec 32) :
    isReporting (createListRegisterEntry intId (x &&& 1#32) (y &&& 0xFF#32) none) = true := by
  rw [isReporting_eq]
  simp only [createListRegisterEntry, BitVec.getLsbD_or, BitVec.getLsbD_shiftLeft,
    BitVec.getLsbD_setWidth, BitVec.getLsbD_and]
  simp [ichLrnEl2StatusPending, ichLrnEl2Eoi]

theorem getLsbD_vIntId (r : BitVec 64) (i : ℕ) :
    (vIntId r).getLsbD i = (r.getLsbD i && decide (i < 32)) := by
  rw [vIntId, show ichLrnEl2Vintid = (BitVec.allOnes 32).setWidth 64 by decide, BitVec.getLsbD_and,
    BitVec.getLsbD_setWidth, BitVec.getLsbD_allOnes]
  by_cases hi : i < 32
  · simp [hi, show i < 64 by omega]
  · simp [hi]

/-- The INTID of an entry. -/
theorem vIntId_createListRegisterEntry (intId group priority : BitVec 32)
    (p : Option (BitVec 32)) :
    vIntId (createListRegisterEntry intId group priority p) = intId.setWidth 64 := by
  refine BitVec.eq_of_getLsbD_eq fun i hi => ?_
  rw [getLsbD_vIntId, BitVec.getLsbD_setWidth]
  by_cases hlow : i < 32
  · -- All other fields lie above the INTID.
    have habove : ∀ (x : BitVec 64) (k : ℕ), 32 ≤ k → (x <<< k).getLsbD i = false := by
      intro x k hk
      rw [BitVec.getLsbD_shiftLeft, decide_eq_true (show i < k by omega), Bool.not_true,
        Bool.and_false, Bool.false_and]
    cases p <;>
      simp only [createListRegisterEntry, ichLrnEl2StatusPending, ichLrnEl2Eoi, ichLrnEl2Hw,
        BitVec.getLsbD_or, BitVec.getLsbD_setWidth, habove _ 62 (by decide), habove _ 61 (by decide),
        habove _ 60 (by decide), habove _ 48 (by decide), habove _ 41 (by decide),
        habove _ 32 (by decide), Bool.false_or, Bool.or_false, decide_eq_true hlow, Bool.and_true]
  · rw [decide_eq_false hlow, Bool.and_false, BitVec.getLsbD_of_ge intId i (not_lt.mp hlow),
      Bool.and_false]

end Vgic

/-! ## The list registers -/

/-- The registers in use report their completion, and each INTID of `N` is still in a register that
does. -/
structure Tracked (v : BitVec 64) (lr : ListRegisters) (N : Set ℕ) : Prop where
  unused : UnusedInactive v lr
  reporting : ∀ i, isInactive (lr i) = false → isReporting (lr i) = true
  register : ∀ n ∈ N, ∃ i < supportedLrn v, (vIntId (lr i)).toNat = n ∧ isReporting (lr i) = true

/-- The entry is not written over a register whose completion is still to be handled, unless it is that of
the same INTID. -/
def Spares (v : BitVec 64) (lr : ListRegisters) (entry : BitVec 64) : Prop :=
  ∀ i, slotFor v lr entry = some i → eoiReported (lr i) = true → vIntId (lr i) = vIntId entry

/-- The same for each entry of a queue, in the state it finds. -/
def SparesAll (v : BitVec 64) : ListRegisters → List (BitVec 64) → Prop
  | _, [] => True
  | lr, entry :: queue =>
    Spares v lr entry ∧ SparesAll v (addVirtualInterrupt v lr entry) queue

namespace Tracked

variable {v : BitVec 64} {lr lr' : ListRegisters} {N N' : Set ℕ}

theorem mono (h : Tracked v lr N) (hN : N' ⊆ N) : Tracked v lr N' :=
  ⟨h.unused, h.reporting, fun n hn => h.register n (hN hn)⟩

/-- One register changes its status. -/
theorem update (h : Tracked v lr N) {i : ℕ} {r : BitVec 64}
    (hin : isInactive (lr i) = true → isInactive r = true) (hid : vIntId r = vIntId (lr i))
    (hrep : isReporting r = isReporting (lr i)) : Tracked v (Function.update lr i r) N := by
  have heq : ∀ j, vIntId (Function.update lr i r j) = vIntId (lr j) ∧
      isReporting (Function.update lr i r j) = isReporting (lr j) ∧
      (isInactive (lr j) = true → isInactive (Function.update lr i r j) = true) := by
    intro j
    by_cases hj : j = i
    · subst hj
      rw [Function.update_self]
      exact ⟨hid, hrep, hin⟩
    · rw [Function.update_of_ne hj]
      exact ⟨rfl, rfl, id⟩
  refine ⟨fun j hj => (heq j).2.2 (h.unused j hj), fun j hj => ?_, fun n hn => ?_⟩
  · rw [(heq j).2.1]
    refine h.reporting j (Bool.eq_false_iff.mpr fun hc => ?_)
    exact absurd (hj.symm.trans ((heq j).2.2 hc)) (by decide)
  · obtain ⟨j, hj, hn, hr⟩ := h.register n hn
    exact ⟨j, hj, by rw [(heq j).1, hn], by rw [(heq j).2.1, hr]⟩

/-- An entry that reports its completion is added. -/
theorem addVirtualInterrupt (h : Tracked v lr N) {e : BitVec 64} (he : isReporting e = true)
    (hs : Spares v lr e) : Tracked v (addVirtualInterrupt v lr e) N := by
  unfold Vgic.addVirtualInterrupt
  cases hk : slotFor v lr e with
  | none => exact h
  | some k =>
    have hlt : k < supportedLrn v := (slotFor_eq_some.mp hk).1
    dsimp only
    split_ifs with hin
    · refine ⟨fun j hj => ?_, fun j hj => ?_, fun n hn => ?_⟩
      · rw [Function.update_of_ne (by omega)]
        exact h.unused j hj
      · by_cases hjk : j = k
        · rw [hjk, Function.update_self]
          exact he
        · rw [Function.update_of_ne hjk] at hj ⊢
          exact h.reporting j hj
      · obtain ⟨j, hj, hid, hr⟩ := h.register n hn
        by_cases hjk : j = k
        · -- The register that is overwritten has the same INTID.
          subst hjk
          have hsame := hs j hk (by rw [eoiReported_eq, hin, hr]; rfl)
          exact ⟨j, hj, by rw [Function.update_self, ← hsame, hid], by rw [Function.update_self, he]⟩
        · exact ⟨j, hj, by rw [Function.update_of_ne hjk, hid], by rw [Function.update_of_ne hjk, hr]⟩
    · exact h.update (fun hc => absurd hc hin) (vIntId_or_pending _) (isReporting_or_pending _)

theorem injectAll : ∀ (queue : List (BitVec 64)) {lr : ListRegisters}, Tracked v lr N →
    (∀ e ∈ queue, isReporting e = true) → SparesAll v lr queue →
    Tracked v (MiniVisor.injectAll v lr queue) N
  | [], _, h, _, _ => h
  | e :: queue, _, h, hq, hs =>
    injectAll queue (h.addVirtualInterrupt (hq e List.mem_cons_self) hs.1)
      (fun e' he' => hq e' (List.mem_cons_of_mem _ he')) hs.2

/-- Registers whose completion is reported are cleared, and their INTIDs no longer needed. -/
theorem maintained (h : Tracked v lr N) {s s' : Gic × ListRegisters}
    (hm : Maintained (fun j => j < supportedLrn v ∧ eoiReported (s.2 j) = true) s s') (hs : s.2 = lr)
    (hN : ∀ n ∈ N', n ∈ N ∧ ∀ j, j < supportedLrn v → eoiReported (lr j) = true →
      (vIntId (lr j)).toNat ≠ n) : Tracked v s'.2 N' := by
  subst hs
  have hcases : ∀ j, s'.2 j = 0#64 ∨ s'.2 j = s.2 j := by
    intro j
    by_cases hj : j < supportedLrn v ∧ eoiReported (s.2 j) = true
    · exact .inl (hm.cleared j hj)
    · exact .inr (hm.kept j hj)
  refine ⟨fun j hj => ?_, fun j hj => ?_, fun n hn => ?_⟩
  · rcases hcases j with h0 | h0 <;> rw [h0]
    · exact isInactive_zero
    · exact h.unused j hj
  · rcases hcases j with h0 | h0 <;> rw [h0] at hj ⊢
    · exact absurd (hj.symm.trans isInactive_zero) (by decide)
    · exact h.reporting j hj
  · obtain ⟨hnN, hne⟩ := hN n hn
    obtain ⟨j, hj, hid, hr⟩ := h.register n hnN
    have hkept : s'.2 j = s.2 j := hm.kept j fun hc => hne j hj hc.2 hid
    exact ⟨j, hj, by rw [hkept, hid], by rw [hkept, hr]⟩

end Tracked

/-! ## The condition on the events -/

/-- A trigger of `n` on `cpu` loses no completion : an interrupt that is handed on has no physical
INTID, and does not take a register whose completion is still to be handled. -/
def GicDistributorMmio.TriggerSpares (d : GicDistributorMmio) (cpu : Cpu) (n : ℕ)
    (p : Option (BitVec 32)) : Prop :=
  d.Delivers n → p = none ∧ (sameAffinity (d.router.reg n) cpu.mpidrEl1 →
    Spares cpu.ichVtrEl2 cpu.lr (d.listEntry n p))

/-- The same for an iteration of a bit scan. -/
def GicDistributorMmio.ScanSpares (test : GicDistributorMmio → ℕ → Exec Bool) :
    (ℕ × BitVec 64) × GicDistributorMmio × Cpu → Prop
  | ((intId, value), d, cpu) =>
    value.getLsbD 0 = true → test d intId = .ok true → d.TriggerSpares cpu intId none

def GicRedistributorMmio.TriggerSpares (r : GicRedistributorMmio) (cpu : Cpu) (n : ℕ)
    (p : Option (BitVec 32)) : Prop :=
  r.Delivers n → p = none ∧ (r.affinity = mpidrToAffinity cpu.mpidrEl1 →
    Spares cpu.ichVtrEl2 cpu.lr (r.listEntry n p))

def GicRedistributorMmio.ScanSpares (test : GicRedistributorMmio → ℕ → Exec Bool) :
    (ℕ × BitVec 64) × GicRedistributorMmio × Cpu → Prop
  | ((intId, value), r, cpu) =>
    value.getLsbD 0 = true → test r intId = .ok true → r.TriggerSpares cpu intId none

/-- The event loses no completion. -/
def GicEvent.KeepsCompletions : GicEvent → Gic × Cpu → Prop
  | distributorTrigger intId p, (gic, cpu) => gic.distributor.TriggerSpares cpu intId p
  | distributorTriggerOn other intId p, (gic, _) => gic.distributor.Delivers intId →
    ¬sameAffinity (gic.distributor.router.reg intId) other.mpidrEl1 → p = none
  | redistributorTrigger intId p, (gic, cpu) => gic.redistributor.TriggerSpares cpu intId p
  | redistributorTriggerOn other intId p, (gic, _) => gic.redistributor.Delivers intId →
    gic.redistributor.affinity ≠ mpidrToAffinity other.mpidrEl1 → p = none
  | distributorWrite offset w value, ({ distributor := d, .. }, cpu) => w = 32 →
    (GicDistributorMmio.inWindow gicdIsenabler0 gicdIsenabler31 offset →
      let i := (offset - gicdIsenabler0) / 4
      let d := { d with enable := d.enable.update i (d.enable.reg i ||| value.setWidth 32) }
      Throughout (GicDistributorMmio.scanStep GicDistributorMmio.getPending)
        (GicDistributorMmio.ScanSpares GicDistributorMmio.getPending) 65
        ((i * 32, value), d, cpu)) ∧
    (GicDistributorMmio.inWindow gicdIspendr0 gicdIspendr31 offset →
      let i := (offset - gicdIspendr0) / 4
      let d := { d with pending := d.pending.update i (d.pending.reg i ||| value.setWidth 32) }
      Throughout (GicDistributorMmio.scanStep GicDistributorMmio.getEnable)
        (GicDistributorMmio.ScanSpares GicDistributorMmio.getEnable) 65
        ((i * 32, value), d, cpu))
  | redistributorWrite offset w value, ({ redistributor := r, .. }, cpu) => w = 32 →
    (offset = gicrIsenabler0 →
      let r := { r with enable := r.enable ||| value.setWidth 32 }
      Throughout (GicRedistributorMmio.scanStep GicRedistributorMmio.getPending)
        (GicRedistributorMmio.ScanSpares GicRedistributorMmio.getPending) 33 ((0, value), r, cpu)) ∧
    (offset = gicrIspendr0 →
      let r := { r with pending := r.pending ||| value.setWidth 32 }
      Throughout (GicRedistributorMmio.scanStep GicRedistributorMmio.getEnable)
        (GicRedistributorMmio.ScanSpares GicRedistributorMmio.getEnable) 33 ((0, value), r, cpu))
  | injectInterruptHandler, (gic, cpu) => SparesAll cpu.ichVtrEl2 cpu.lr
    (gic.distributor.toInjectInterrupt ++ gic.redistributor.toInjectInterrupt)
  | _, _ => True

/-- As soon as the processor reports no completion, an INTID of `K` that is in no list register in
use and in no queue is neither pending nor active. -/
def NoStale (s : Gic × Cpu) (K : Set ℕ) : Prop :=
  IsEisr s.2.ichVtrEl2 s.2.lr 0 → ∀ n ∈ K,
    (∀ i < numberOfLrn s.2.ichVtrEl2, isInactive (s.2.lr i) = false →
      (vIntId (s.2.lr i)).toNat ≠ n) →
    (∀ e ∈ s.1.distributor.toInjectInterrupt ++ s.1.redistributor.toInjectInterrupt,
      (vIntId e).toNat ≠ n) →
    s.1.pendingBit n = false ∧ s.1.activeBit n = false

/-! ## The invariant -/

/-- The INTIDs of `K` with a bit left. -/
def Gic.marked (gic : Gic) (K : Set ℕ) : Set ℕ :=
  {n ∈ K | gic.pendingBit n = true ∨ gic.activeBit n = true}

/-- The INTIDs of `K` with a bit left are in list registers that report their completion, as do the
entries in the queues. -/
structure Accounted (s : Gic × Cpu) (K : Set ℕ) : Prop where
  tracked : Tracked s.2.ichVtrEl2 s.2.lr (s.1.marked K)
  queued : ∀ e ∈ s.1.distributor.toInjectInterrupt ++ s.1.redistributor.toInjectInterrupt,
    isReporting e = true

theorem Accounted.noStale {s : Gic × Cpu} {K : Set ℕ} (h : Accounted s K) : NoStale s K := by
  intro heisr n hn hlr _
  suffices hbits : ¬(s.1.pendingBit n = true ∨ s.1.activeBit n = true) by
    rw [not_or, Bool.not_eq_true, Bool.not_eq_true] at hbits
    exact hbits
  intro hbits
  obtain ⟨i, hi, hid, hr⟩ := h.tracked.register n ⟨hn, hbits⟩
  have hle := supportedLrn_le s.2.ichVtrEl2
  by_cases hin : isInactive (s.2.lr i) = true
  · -- Its completion would be reported.
    have hrep : eoiReported (s.2.lr i) = true := by rw [eoiReported_eq, hin, hr]; rfl
    have h0 := heisr i
    rw [hrep, decide_eq_true (show i < numberOfLrn s.2.ichVtrEl2 by omega)] at h0
    simp at h0
  · exact hlr i (by omega) (by simpa using hin) hid

section Step

variable {gic gic' : Gic} {cpu cpu' : Cpu} {K K' : Set ℕ} {n : ℕ} {p : Option (BitVec 32)}

/-- An event that only takes INTIDs out of `K`, and marks none of the others. -/
theorem Accounted.mono (h : Accounted (gic, cpu) K)
    (ht : ∀ N, Tracked cpu.ichVtrEl2 cpu.lr N → Tracked cpu'.ichVtrEl2 cpu'.lr N)
    (hb : ∀ m ∈ K', m ∈ K ∧ (gic'.pendingBit m = true → gic.pendingBit m = true) ∧
      (gic'.activeBit m = true → gic.activeBit m = true))
    (hq : ∀ e ∈ gic'.distributor.toInjectInterrupt ++ gic'.redistributor.toInjectInterrupt,
      isReporting e = true) : Accounted (gic', cpu') K' := by
  refine ⟨(ht _ h.tracked).mono fun m hm => ?_, hq⟩
  obtain ⟨hK, hp, ha⟩ := hb m hm.1
  exact ⟨hK, hm.2.imp hp ha⟩

/-- Making `n` pending in the distributor marks no INTID but `n`. -/
theorem marks_distributor (hn : n ∉ K) (d : GicDistributorMmio)
    (hp : d.pending = (gic.distributor.setPending n).pending)
    (ha : d.active = gic.distributor.active) : ∀ m ∈ K, m ∈ K ∧
      (Gic.pendingBit { gic with distributor := d } m = true → gic.pendingBit m = true) ∧
      (Gic.activeBit { gic with distributor := d } m = true → gic.activeBit m = true) := by
  intro m hm
  have hne : m ≠ n := ne_of_mem_of_not_mem hm hn
  refine ⟨hm, fun hpm => ?_, fun ham => ?_⟩
  · by_cases h : 32 ≤ m
    · rw [Gic.pendingBit_spi h] at hpm ⊢
      rwa [hp, GicDistributorMmio.setPending_bit, decide_eq_false hne, Bool.or_false] at hpm
    · rwa [Gic.pendingBit_ppi h] at hpm ⊢
  · unfold Gic.activeBit at ham ⊢
    rwa [ha] at ham

/-- Making `n` pending in the redistributor marks no INTID but `n`. -/
theorem marks_redistributor (hlt : n < 32) (hn : n ∉ K) (r : GicRedistributorMmio)
    (hp : r.pending = (gic.redistributor.setPending n).pending)
    (ha : r.active = gic.redistributor.active) : ∀ m ∈ K, m ∈ K ∧
      (Gic.pendingBit { gic with redistributor := r } m = true → gic.pendingBit m = true) ∧
      (Gic.activeBit { gic with redistributor := r } m = true → gic.activeBit m = true) := by
  intro m hm
  have hne : m ≠ n := ne_of_mem_of_not_mem hm hn
  refine ⟨hm, fun hpm => ?_, fun ham => ?_⟩
  · by_cases h : 32 ≤ m
    · rwa [Gic.pendingBit_spi h] at hpm ⊢
    · rw [Gic.pendingBit_ppi h] at hpm ⊢
      rwa [hp, GicRedistributorMmio.setPending, BitVec.getLsbD_or, getLsbD_one_shiftLeft hlt,
        decide_eq_false hne, Bool.or_false] at hpm
  · unfold Gic.activeBit at ham ⊢
    rwa [ha] at ham

/-- An entry that reports its completion joins the queue of the distributor. -/
theorem Accounted.queued_distributor (h : Accounted (gic, cpu) K) {e : BitVec 64}
    (he : isReporting e = true) : ∀ e' ∈ gic.distributor.toInjectInterrupt ++ [e] ++
      gic.redistributor.toInjectInterrupt, isReporting e' = true := by
  intro e' he'
  rw [List.append_assoc, List.mem_append, List.mem_append, List.mem_singleton] at he'
  rcases he' with he' | rfl | he'
  · exact h.queued e' (List.mem_append_left _ he')
  · exact he
  · exact h.queued e' (List.mem_append_right _ he')

theorem Accounted.queued_redistributor (h : Accounted (gic, cpu) K) {e : BitVec 64}
    (he : isReporting e = true) : ∀ e' ∈ gic.distributor.toInjectInterrupt ++
      (gic.redistributor.toInjectInterrupt ++ [e]), isReporting e' = true := by
  intro e' he'
  rw [← List.append_assoc, List.mem_append, List.mem_singleton] at he'
  rcases he' with he' | rfl
  · exact h.queued e' he'
  · exact he

theorem GicDistributorMmio.isReporting_listEntry {d : GicDistributorMmio} :
    isReporting (d.listEntry n none) = true :=
  isReporting_createListRegisterEntry ..

theorem GicRedistributorMmio.isReporting_listEntry {r : GicRedistributorMmio} :
    isReporting (r.listEntry n none) = true :=
  isReporting_createListRegisterEntry ..

theorem Accounted.distributorTrigger (h : Accounted (gic, cpu) K) (hn : n ∉ K)
    {d : GicDistributorMmio} (hc : gic.distributor.TriggerSpares cpu n p)
    (he : gic.distributor.triggerInterrupt cpu n p = .ok (d, cpu')) :
    Accounted ({ gic with distributor := d }, cpu') K := by
  obtain ⟨-, rfl, rfl⟩ | ⟨-, -, rfl, rfl⟩ | ⟨-, hd, hroute, rfl, rfl⟩ | ⟨-, hd, -, rfl, rfl⟩ :=
    GicDistributorMmio.triggerInterrupt_cases he
  · exact h
  · exact h.mono (fun _ => id) (marks_distributor hn _ rfl rfl) h.queued
  · obtain ⟨rfl, hs⟩ := hc hd
    exact h.mono (fun _ ht => ht.addVirtualInterrupt
      GicDistributorMmio.isReporting_listEntry (hs hroute)) (marks_distributor hn _ rfl rfl) h.queued
  · obtain ⟨rfl, -⟩ := hc hd
    exact h.mono (fun _ => id) (marks_distributor hn _ rfl rfl)
      (h.queued_distributor GicDistributorMmio.isReporting_listEntry)

theorem Accounted.distributorTriggerOn (h : Accounted (gic, cpu) K) (hn : n ∉ K) {other other' : Cpu}
    {d : GicDistributorMmio} (hc : gic.distributor.Delivers n →
      ¬sameAffinity (gic.distributor.router.reg n) other.mpidrEl1 → p = none)
    (he : gic.distributor.triggerInterrupt other n p = .ok (d, other')) :
    Accounted ({ gic with distributor := d }, cpu) K := by
  obtain ⟨-, rfl, -⟩ | ⟨-, -, rfl, -⟩ | ⟨-, -, -, rfl, -⟩ | ⟨-, hd, hroute, rfl, -⟩ :=
    GicDistributorMmio.triggerInterrupt_cases he
  · exact h
  · exact h.mono (fun _ => id) (marks_distributor hn _ rfl rfl) h.queued
  · exact h.mono (fun _ => id) (marks_distributor hn _ rfl rfl) h.queued
  · obtain rfl := hc hd hroute
    exact h.mono (fun _ => id) (marks_distributor hn _ rfl rfl)
      (h.queued_distributor GicDistributorMmio.isReporting_listEntry)

theorem Accounted.redistributorTrigger (h : Accounted (gic, cpu) K) (hn : n ∉ K)
    {r : GicRedistributorMmio} (hc : gic.redistributor.TriggerSpares cpu n p)
    (he : gic.redistributor.triggerInterrupt cpu n p = .ok (r, cpu')) :
    Accounted ({ gic with redistributor := r }, cpu') K := by
  obtain ⟨-, rfl, rfl⟩ | ⟨hlt, -, rfl, rfl⟩ | ⟨hlt, hd, hroute, rfl, rfl⟩ | ⟨hlt, hd, -, rfl, rfl⟩ :=
    GicRedistributorMmio.triggerInterrupt_cases he
  · exact h
  · exact h.mono (fun _ => id) (marks_redistributor hlt hn _ rfl rfl) h.queued
  · obtain ⟨rfl, hs⟩ := hc hd
    exact h.mono (fun _ ht => ht.addVirtualInterrupt
      GicRedistributorMmio.isReporting_listEntry (hs hroute)) (marks_redistributor hlt hn _ rfl rfl)
      h.queued
  · obtain ⟨rfl, -⟩ := hc hd
    exact h.mono (fun _ => id) (marks_redistributor hlt hn _ rfl rfl)
      (h.queued_redistributor GicRedistributorMmio.isReporting_listEntry)

theorem Accounted.redistributorTriggerOn (h : Accounted (gic, cpu) K) (hn : n ∉ K)
    {other other' : Cpu} {r : GicRedistributorMmio} (hc : gic.redistributor.Delivers n →
      gic.redistributor.affinity ≠ mpidrToAffinity other.mpidrEl1 → p = none)
    (he : gic.redistributor.triggerInterrupt other n p = .ok (r, other')) :
    Accounted ({ gic with redistributor := r }, cpu) K := by
  obtain ⟨-, rfl, -⟩ | ⟨hlt, -, rfl, -⟩ | ⟨hlt, -, -, rfl, -⟩ | ⟨hlt, hd, hroute, rfl, -⟩ :=
    GicRedistributorMmio.triggerInterrupt_cases he
  · exact h
  · exact h.mono (fun _ => id) (marks_redistributor hlt hn _ rfl rfl) h.queued
  · exact h.mono (fun _ => id) (marks_redistributor hlt hn _ rfl rfl) h.queued
  · obtain rfl := hc hd hroute
    exact h.mono (fun _ => id) (marks_redistributor hlt hn _ rfl rfl)
      (h.queued_redistributor GicRedistributorMmio.isReporting_listEntry)

/-! ## Bit scans -/

theorem GicDistributorMmio.scanBit_cases {test : GicDistributorMmio → ℕ → Exec Bool}
    {d : GicDistributorMmio} {value : BitVec 64} {s : GicDistributorMmio × Cpu}
    (h : scanBit d test cpu n value = .ok s) : s = (d, cpu) ∨
      (value.getLsbD 0 = true ∧ test d n = .ok true ∧ d.triggerInterrupt cpu n none = .ok s) := by
  refine Exec.ok_of_ite h (fun _ h => .inl (Except.ok.inj h).symm) fun hb h => ?_
  rw [and_one_eq_zero, Bool.not_eq_false] at hb
  obtain ⟨fire, ht, h⟩ := Exec.bind_eq_ok.mp h
  cases fire with
  | false => exact .inl (Except.ok.inj h).symm
  | true => exact .inr ⟨hb, ht, h⟩

theorem GicRedistributorMmio.scanBit_cases {test : GicRedistributorMmio → ℕ → Exec Bool}
    {r : GicRedistributorMmio} {value : BitVec 64} {s : GicRedistributorMmio × Cpu}
    (h : scanBit r test cpu n value = .ok s) : s = (r, cpu) ∨
      (value.getLsbD 0 = true ∧ test r n = .ok true ∧ r.triggerInterrupt cpu n none = .ok s) := by
  refine Exec.ok_of_ite h (fun _ h => .inl (Except.ok.inj h).symm) fun hb h => ?_
  rw [GicDistributorMmio.and_one_eq_zero, Bool.not_eq_false] at hb
  obtain ⟨fire, ht, h⟩ := Exec.bind_eq_ok.mp h
  cases fire with
  | false => exact .inl (Except.ok.inj h).symm
  | true => exact .inr ⟨hb, ht, h⟩

/-- What every trigger keeps holds behind a scan. -/
theorem GicDistributorMmio.scan_triggers {test : GicDistributorMmio → ℕ → Exec Bool}
    {I : GicDistributorMmio × Cpu → Prop}
    (htrigger : ∀ {m d cpu s}, I (d, cpu) → d.triggerInterrupt cpu m none = .ok s → I s)
    {d : GicDistributorMmio} {value : BitVec 64} {s : GicDistributorMmio × Cpu} (h : I (d, cpu))
    (hs : d.scan test cpu n value = .ok s) : I s := by
  refine loop_ok (I := fun x => I x.2) (C := fun _ => True) ?_ ?_ 65 _ h (throughout_true ..) hs
  · rintro ⟨⟨m, value⟩, d, cpu⟩ x hI - hstep
    refine Exec.ok_of_ite hstep (fun _ hstep => by cases hstep) fun _ hstep => ?_
    obtain ⟨s₁, hbit, hstep⟩ := Exec.bind_eq_ok.mp hstep
    cases hstep
    obtain rfl | ⟨-, -, htrig⟩ := scanBit_cases hbit
    · exact hI
    · exact htrigger hI htrig
  · rintro ⟨⟨m, value⟩, d, cpu⟩ s₁ hI - hstep
    refine Exec.ok_of_ite hstep (fun _ hstep => ?_) fun _ hstep => ?_
    · cases hstep
      exact hI
    · obtain ⟨_, -, hstep⟩ := Exec.bind_eq_ok.mp hstep
      cases hstep

theorem GicRedistributorMmio.scan_triggers {test : GicRedistributorMmio → ℕ → Exec Bool}
    {I : GicRedistributorMmio × Cpu → Prop}
    (htrigger : ∀ {m r cpu s}, I (r, cpu) → r.triggerInterrupt cpu m none = .ok s → I s)
    {r : GicRedistributorMmio} {value : BitVec 64} {s : GicRedistributorMmio × Cpu} (h : I (r, cpu))
    (hs : r.scan test cpu value = .ok s) : I s := by
  refine loop_ok (I := fun x => I x.2) (C := fun _ => True) ?_ ?_ 33 _ h (throughout_true ..) hs
  · rintro ⟨⟨m, value⟩, r, cpu⟩ x hI - hstep
    refine Exec.ok_of_ite hstep (fun _ hstep => by cases hstep) fun _ hstep => ?_
    obtain ⟨s₁, hbit, hstep⟩ := Exec.bind_eq_ok.mp hstep
    cases hstep
    obtain rfl | ⟨-, -, htrig⟩ := scanBit_cases hbit
    · exact hI
    · exact htrigger hI htrig
  · rintro ⟨⟨m, value⟩, r, cpu⟩ s₁ hI - hstep
    refine Exec.ok_of_ite hstep (fun _ hstep => ?_) fun _ hstep => ?_
    · cases hstep
      exact hI
    · obtain ⟨_, -, hstep⟩ := Exec.bind_eq_ok.mp hstep
      cases hstep

/-- A scan of the distributor that triggers no INTID of `K`. -/
theorem Accounted.distributorScan {test : GicDistributorMmio → ℕ → Exec Bool}
    {T : GicDistributorMmio → ℕ → Bool} (hT : GicDistributorMmio.IsTest test T)
    {d d' : GicDistributorMmio} {value : BitVec 64}
    (h : Accounted ({ gic with distributor := d }, cpu) K)
    (hK : ∀ b, value.getLsbD b = true → n + b < 1024 ∧ (T d (n + b) = true → n + b ∉ K))
    (hc : Throughout (GicDistributorMmio.scanStep test) (GicDistributorMmio.ScanSpares test) 65
      ((n, value), d, cpu))
    (hs : d.scan test cpu n value = .ok (d', cpu')) :
    Accounted ({ gic with distributor := d' }, cpu') K := by
  let I : (ℕ × BitVec 64) × GicDistributorMmio × Cpu → Prop := fun s =>
    Accounted ({ gic with distributor := s.2.1 }, s.2.2) K ∧ ∀ b, s.1.2.getLsbD b = true →
      s.1.1 + b < 1024 ∧ (T s.2.1 (s.1.1 + b) = true → s.1.1 + b ∉ K)
  have hnext : ∀ s s', I s → GicDistributorMmio.ScanSpares test s →
      GicDistributorMmio.scanStep test s = .ok (.next s') → I s' := by
    rintro ⟨⟨m, v⟩, d, cpu⟩ s' ⟨hI, hm⟩ hC hstep
    refine Exec.ok_of_ite hstep (fun _ hstep => by cases hstep) fun _ hstep => ?_
    obtain ⟨⟨d₁, cpu₁⟩, hbit, hstep⟩ := Exec.bind_eq_ok.mp hstep
    cases hstep
    -- The INTIDs still to come.
    have hrest : ∀ b, (v >>> 1).getLsbD b = true →
        m + 1 + b < 1024 ∧ (T d (m + 1 + b) = true → m + 1 + b ∉ K) := by
      intro b hb
      rw [BitVec.getLsbD_ushiftRight, Nat.add_comm] at hb
      rw [Nat.add_assoc, Nat.add_comm 1 b]
      exact hm (b + 1) hb
    rcases GicDistributorMmio.scanBit_cases hbit with heq | ⟨hb, ht, htrig⟩
    · cases heq
      exact ⟨hI, hrest⟩
    · obtain ⟨hlt, hfresh⟩ := hm 0 hb
      have hTm : T d m = true := Except.ok.inj ((hT.eq d m hlt).symm.trans ht)
      refine ⟨hI.distributorTrigger (hfresh hTm) (hC hb ht) htrig, fun b hb' => ?_⟩
      obtain ⟨hk, hp⟩ := GicDistributorMmio.triggerInterrupt_keeps hlt htrig
      simp only
      rw [hT.keeps d d₁ cpu cpu₁ m (m + 1 + b) (by omega) hk hp]
      exact hrest b hb'
  have hdone : ∀ s r, I s → GicDistributorMmio.ScanSpares test s →
      GicDistributorMmio.scanStep test s = .ok (.done r) →
      Accounted ({ gic with distributor := r.1 }, r.2) K := by
    rintro ⟨⟨m, v⟩, d, cpu⟩ r ⟨hI, -⟩ - hstep
    refine Exec.ok_of_ite hstep (fun _ hstep => ?_) fun _ hstep => ?_
    · cases hstep
      exact hI
    · obtain ⟨_, -, hstep⟩ := Exec.bind_eq_ok.mp hstep
      cases hstep
  exact loop_ok hnext hdone 65 _ ⟨h, hK⟩ hc hs

/-- `test` reads a bit that triggering another interrupt does not change. -/
structure GicRedistributorMmio.IsTest (test : GicRedistributorMmio → ℕ → Exec Bool)
    (T : GicRedistributorMmio → ℕ → Bool) : Prop where
  eq : ∀ r n, n < 32 → test r n = .ok (T r n)
  keeps : ∀ (r r' : GicRedistributorMmio) (cpu cpu' : Cpu) (n m : ℕ), m ≠ n →
    r.triggerInterrupt cpu n none = .ok (r', cpu') → T r' m = T r m

theorem GicRedistributorMmio.isTest_getPending :
    IsTest getPending fun r n => r.pending.getLsbD n where
  eq _ _ hn := getPending_eq hn
  keeps r r' _ _ n m hm h := by
    have hset : n < 32 → (r.setPending n).pending.getLsbD m = r.pending.getLsbD m := by
      intro hlt
      rw [setPending, BitVec.getLsbD_or, getLsbD_one_shiftLeft hlt, decide_eq_false hm,
        Bool.or_false]
    obtain ⟨-, rfl, -⟩ | ⟨hlt, -, rfl, -⟩ | ⟨hlt, -, -, rfl, -⟩ | ⟨hlt, -, -, rfl, -⟩ :=
      triggerInterrupt_cases h
    · rfl
    all_goals exact hset hlt

theorem GicRedistributorMmio.isTest_getEnable :
    IsTest getEnable fun r n => r.enable.getLsbD n where
  eq _ _ hn := getEnable_eq hn
  keeps r r' _ _ n m hm h := by
    obtain ⟨-, rfl, -⟩ | ⟨-, -, rfl, -⟩ | ⟨-, -, -, rfl, -⟩ | ⟨-, -, -, rfl, -⟩ :=
      triggerInterrupt_cases h <;> rfl

/-- A scan of the redistributor that triggers no INTID of `K`. -/
theorem Accounted.redistributorScan {test : GicRedistributorMmio → ℕ → Exec Bool}
    {T : GicRedistributorMmio → ℕ → Bool} (hT : GicRedistributorMmio.IsTest test T)
    {r r' : GicRedistributorMmio} {value : BitVec 64}
    (h : Accounted ({ gic with redistributor := r }, cpu) K)
    (hK : ∀ b, value.getLsbD b = true → T r b = true → b ∉ K)
    (hc : Throughout (GicRedistributorMmio.scanStep test) (GicRedistributorMmio.ScanSpares test) 33
      ((0, value), r, cpu))
    (hs : r.scan test cpu value = .ok (r', cpu')) :
    Accounted ({ gic with redistributor := r' }, cpu') K := by
  let I : (ℕ × BitVec 64) × GicRedistributorMmio × Cpu → Prop := fun s =>
    Accounted ({ gic with redistributor := s.2.1 }, s.2.2) K ∧ ∀ b, s.1.2.getLsbD b = true →
      T s.2.1 (s.1.1 + b) = true → s.1.1 + b ∉ K
  have hnext : ∀ s s', I s → GicRedistributorMmio.ScanSpares test s →
      GicRedistributorMmio.scanStep test s = .ok (.next s') → I s' := by
    rintro ⟨⟨m, v⟩, r, cpu⟩ s' ⟨hI, hm⟩ hC hstep
    refine Exec.ok_of_ite hstep (fun _ hstep => by cases hstep) fun hlt hstep => ?_
    obtain ⟨⟨r₁, cpu₁⟩, hbit, hstep⟩ := Exec.bind_eq_ok.mp hstep
    cases hstep
    have hrest : ∀ b, (v >>> 1).getLsbD b = true → T r (m + 1 + b) = true → m + 1 + b ∉ K := by
      intro b hb
      rw [BitVec.getLsbD_ushiftRight, Nat.add_comm] at hb
      rw [Nat.add_assoc, Nat.add_comm 1 b]
      exact hm (b + 1) hb
    rcases GicRedistributorMmio.scanBit_cases hbit with heq | ⟨hb, ht, htrig⟩
    · cases heq
      exact ⟨hI, hrest⟩
    · have hTm : T r m = true := Except.ok.inj ((hT.eq r m (by omega)).symm.trans ht)
      refine ⟨hI.redistributorTrigger (hm 0 hb hTm) (hC hb ht) htrig, fun b hb' => ?_⟩
      simp only
      rw [hT.keeps r r₁ cpu cpu₁ m (m + 1 + b) (by omega) htrig]
      exact hrest b hb'
  have hdone : ∀ s q, I s → GicRedistributorMmio.ScanSpares test s →
      GicRedistributorMmio.scanStep test s = .ok (.done q) →
      Accounted ({ gic with redistributor := q.1 }, q.2) K := by
    rintro ⟨⟨m, v⟩, r, cpu⟩ q ⟨hI, -⟩ - hstep
    refine Exec.ok_of_ite hstep (fun _ hstep => ?_) fun _ hstep => ?_
    · cases hstep
      exact hI
    · obtain ⟨_, -, hstep⟩ := Exec.bind_eq_ok.mp hstep
      cases hstep
  refine loop_ok hnext hdone 33 _ ⟨h, fun b hb => ?_⟩ hc hs
  simp only [Nat.zero_add]
  exact hK b hb

/-! ## Guest writes -/

/-- Setting bits in register `i` of an array of one bit per interrupt. -/
theorem Bank.bit_update_or (b : Bank 32 32) (i m : ℕ) (x : BitVec 32) :
    (b.update i (b.reg i ||| x)).bit m = true →
      b.bit m = true ∨ (m / 32 = i ∧ x.getLsbD (m % 32) = true) := by
  unfold Bank.bit
  by_cases hi : m / 32 = i
  · subst hi
    rw [Bank.update_reg_self, BitVec.getLsbD_or, Bool.or_eq_true]
    exact Or.imp_right fun h => ⟨rfl, h⟩
  · rw [Bank.update_reg_of_ne _ hi]
    exact Or.inl

/-- Clearing bits in register `i` of an array of one bit per interrupt. -/
theorem Bank.bit_update_and_not (b : Bank 32 32) (i m : ℕ) (x : BitVec 32) :
    (b.update i (b.reg i &&& ~~~x)).bit m = true → b.bit m = true := by
  unfold Bank.bit
  by_cases hi : m / 32 = i
  · subst hi
    rw [Bank.update_reg_self, BitVec.getLsbD_and, Bool.and_eq_true]
    exact And.left
  · rw [Bank.update_reg_of_ne _ hi]
    exact id

/-- An INTID whose bit a write does not set. -/
theorem bit_of_not_writtenBit {b : Bank 32 32} {lo hi offset w m : ℕ} {value : BitVec 64}
    (hw : w = 32) (ho : GicDistributorMmio.inWindow lo hi offset)
    (hm : ¬WrittenBit lo hi offset w value m)
    (hb : (b.update ((offset - lo) / 4) (b.reg ((offset - lo) / 4) ||| value.setWidth 32)).bit m =
      true) : b.bit m = true := by
  refine (Bank.bit_update_or _ _ _ _ hb).resolve_right fun ⟨hi, hx⟩ => hm ⟨ho, hw, by omega, ?_⟩
  rw [BitVec.getLsbD_setWidth, Bool.and_eq_true] at hx
  rw [← hi, show m - m / 32 * 32 = m % 32 by omega]
  exact hx.2

/-- Only the bits of the distributor change. -/
theorem marks_of_distributor {d : GicDistributorMmio} (hK : K' ⊆ K)
    (hp : ∀ m ∈ K', d.pending.bit m = true → gic.distributor.pending.bit m = true)
    (ha : ∀ m ∈ K', d.active.bit m = true → gic.distributor.active.bit m = true) : ∀ m ∈ K', m ∈ K ∧
      (Gic.pendingBit { gic with distributor := d } m = true → gic.pendingBit m = true) ∧
      (Gic.activeBit { gic with distributor := d } m = true → gic.activeBit m = true) := by
  intro m hm
  unfold Gic.pendingBit Gic.activeBit
  refine ⟨hK hm, ?_⟩
  split_ifs
  · exact ⟨hp m hm, ha m hm⟩
  · exact ⟨id, id⟩

/-- Only the bits of the redistributor change. -/
theorem marks_of_redistributor {r : GicRedistributorMmio} (hK : K' ⊆ K)
    (hp : ∀ m ∈ K', r.pending.getLsbD m = true → gic.redistributor.pending.getLsbD m = true)
    (ha : ∀ m ∈ K', r.active.getLsbD m = true → gic.redistributor.active.getLsbD m = true) :
    ∀ m ∈ K', m ∈ K ∧
      (Gic.pendingBit { gic with redistributor := r } m = true → gic.pendingBit m = true) ∧
      (Gic.activeBit { gic with redistributor := r } m = true → gic.activeBit m = true) := by
  intro m hm
  unfold Gic.pendingBit Gic.activeBit
  refine ⟨hK hm, ?_⟩
  split_ifs
  · exact ⟨id, id⟩
  · exact ⟨hp m hm, ha m hm⟩

theorem Accounted.distributorWrite (h : Accounted (gic, cpu) K) {offset w : ℕ} {value : BitVec 64}
    (hv : value.toNat < 2 ^ w)
    (hc : (GicEvent.distributorWrite offset w value).KeepsCompletions (gic, cpu))
    {d : GicDistributorMmio} (he : gic.distributor.write cpu offset w value = .ok (d, cpu')) :
    Accounted ({ gic with distributor := d }, cpu')
      (K \ (GicEvent.distributorWrite offset w value).renews gic) := by
  set K' := K \ (GicEvent.distributorWrite offset w value).renews gic with hK'
  have hsub : K' ⊆ K := Set.sdiff_subset
  cases GicDistributorMmio.write_cases he with
  | ctlr | settings | groupModifier | icenabler =>
    exact h.mono (fun _ => id) (marks_of_distributor hsub (fun _ _ => id) fun _ _ => id) h.queued
  | icpendr i hi =>
    exact h.mono (fun _ => id) (marks_of_distributor hsub
      (fun m _ => Bank.bit_update_and_not _ _ m _) fun _ _ => id) h.queued
  | icactiver i hi =>
    exact h.mono (fun _ => id) (marks_of_distributor hsub (fun _ _ => id)
      fun m _ => Bank.bit_update_and_not _ _ m _) h.queued
  | isactiver i hi hw ho ho' =>
    subst ho'
    exact h.mono (fun _ => id) (marks_of_distributor hsub (fun _ _ => id)
      fun m hm => bit_of_not_writtenBit hw ho fun hb => hm.2 (.inr (.inr hb))) h.queued
  | isenabler i hi hw ho ho' hs =>
    subst hw
    have h₀ : ∀ enable, Accounted ({ gic with distributor.enable := enable }, cpu) K' := fun _ =>
      h.mono (fun _ => id) (marks_of_distributor hsub (fun _ _ => id) fun _ _ => id) h.queued
    refine (h₀ _).distributorScan GicDistributorMmio.isTest_getPending (fun b hb => ?_)
      (ho' ▸ (hc rfl).1 ho) hs
    have hb32 := DistributorAccess.lt_of_getLsbD hv hb
    refine ⟨by omega, fun hpend hmem => hmem.2 (.inl ⟨⟨ho, rfl, by omega, ?_⟩, hpend⟩)⟩
    rwa [← ho', Nat.add_sub_cancel_left]
  | ispendr i hi hw ho ho' hs =>
    subst hw
    have hfresh : ∀ m ∈ K', ¬WrittenBit gicdIspendr0 gicdIspendr31 offset 32 value m :=
      fun m hm hb => hm.2 (.inr (.inl hb))
    have h₀ : ∀ pending : Bank 32 32, (∀ m ∈ K', pending.bit m = true →
        gic.distributor.pending.bit m = true) →
        Accounted ({ gic with distributor.pending := pending }, cpu) K' := fun _ hp =>
      h.mono (fun _ => id) (marks_of_distributor hsub hp fun _ _ => id) h.queued
    refine (h₀ _ fun m hm hb =>
      bit_of_not_writtenBit rfl ho (hfresh m hm) (ho' ▸ hb)).distributorScan
        GicDistributorMmio.isTest_getEnable (fun b hb => ?_)
      (ho' ▸ (hc rfl).2 ho) hs
    have hb32 := DistributorAccess.lt_of_getLsbD hv hb
    refine ⟨by omega, fun _ hmem => hfresh _ hmem ⟨ho, rfl, by omega, ?_⟩⟩
    rwa [← ho', Nat.add_sub_cancel_left]

/-- The single register of a window. -/
theorem writtenBit_register {lo b : ℕ} {value : BitVec 64} (hb : value.getLsbD b = true) :
    WrittenBit lo lo lo 32 value b :=
  ⟨⟨le_refl _, le_refl _⟩, rfl, by omega, by rwa [Nat.sub_self, Nat.zero_div, Nat.zero_mul]⟩

theorem getLsbD_of_not_writtenBit {lo m : ℕ} {x : BitVec 32} {value : BitVec 64}
    (hm : ¬WrittenBit lo lo lo 32 value m) (hb : (x ||| value.setWidth 32).getLsbD m = true) :
    x.getLsbD m = true := by
  rw [BitVec.getLsbD_or, BitVec.getLsbD_setWidth, Bool.or_eq_true, Bool.and_eq_true] at hb
  exact hb.resolve_right fun h => hm (writtenBit_register h.2)

theorem Accounted.redistributorWrite (h : Accounted (gic, cpu) K) {offset w : ℕ}
    {value : BitVec 64}
    (hc : (GicEvent.redistributorWrite offset w value).KeepsCompletions (gic, cpu))
    {r : GicRedistributorMmio} (he : gic.redistributor.write cpu offset w value = .ok (r, cpu')) :
    Accounted ({ gic with redistributor := r }, cpu')
      (K \ (GicEvent.redistributorWrite offset w value).renews gic) := by
  set K' := K \ (GicEvent.redistributorWrite offset w value).renews gic with hK'
  have hsub : K' ⊆ K := Set.sdiff_subset
  have hclear : ∀ (x y : BitVec 32) (m : ℕ), (x &&& ~~~y).getLsbD m = true → x.getLsbD m = true := by
    intro x y m hb
    rw [BitVec.getLsbD_and, Bool.and_eq_true] at hb
    exact hb.1
  cases GicRedistributorMmio.write_cases he with
  | settings =>
    exact h.mono (fun _ => id) (marks_of_redistributor hsub (fun _ _ => id) fun _ _ => id) h.queued
  | icpendr ho =>
    exact h.mono (fun _ => id) (marks_of_redistributor hsub (fun m _ => hclear _ _ m)
      fun _ _ => id) h.queued
  | icactiver ho =>
    exact h.mono (fun _ => id) (marks_of_redistributor hsub (fun _ _ => id)
      fun m _ => hclear _ _ m) h.queued
  | isactiver ho hw =>
    subst ho hw
    exact h.mono (fun _ => id) (marks_of_redistributor hsub (fun _ _ => id)
      fun m hm => getLsbD_of_not_writtenBit fun hb => hm.2 (.inr (.inr hb))) h.queued
  | isenabler ho hw hs =>
    subst ho hw
    have h₀ : ∀ enable, Accounted ({ gic with redistributor.enable := enable }, cpu) K' := fun _ =>
      h.mono (fun _ => id) (marks_of_redistributor hsub (fun _ _ => id) fun _ _ => id) h.queued
    refine (h₀ _).redistributorScan GicRedistributorMmio.isTest_getPending (fun b hb hp hmem => ?_)
      ((hc rfl).1 rfl) hs
    exact hmem.2 (.inl ⟨writtenBit_register hb, hp⟩)
  | ispendr ho hw hs =>
    subst ho hw
    have hfresh : ∀ m ∈ K', ¬WrittenBit gicrIspendr0 gicrIspendr0 gicrIspendr0 32 value m :=
      fun m hm hb => hm.2 (.inr (.inl hb))
    have h₀ : ∀ pending : BitVec 32, (∀ m ∈ K', pending.getLsbD m = true →
        gic.redistributor.pending.getLsbD m = true) →
        Accounted ({ gic with redistributor.pending := pending }, cpu) K' := fun _ hp =>
      h.mono (fun _ => id) (marks_of_redistributor hsub hp fun _ _ => id) h.queued
    refine (h₀ _ fun m hm => getLsbD_of_not_writtenBit (hfresh m hm)).redistributorScan
      GicRedistributorMmio.isTest_getEnable (fun b hb _ hmem => ?_) ((hc rfl).2 rfl) hs
    exact hfresh b hmem (writtenBit_register hb)

/-! ## Handlers and the guest's steps -/

theorem Accounted.injectInterruptHandler (h : Accounted (gic, cpu) K)
    (hc : GicEvent.injectInterruptHandler.KeepsCompletions (gic, cpu)) :
    Accounted (MiniVisor.injectInterruptHandler gic cpu) K := by
  refine h.mono (fun N ht => ?_) (fun m hm => ⟨hm, id, id⟩) fun e he => by cases he
  have hlr := ht.injectAll _ h.queued hc
  unfold injectAll at hlr
  rwa [List.foldl_append] at hlr

theorem Accounted.maintenanceInterruptHandler (h : Accounted (gic, cpu) K) {eoiBits : BitVec 64}
    (he : IsEisr cpu.ichVtrEl2 cpu.lr eoiBits)
    (hx : MiniVisor.maintenanceInterruptHandler gic cpu eoiBits = .ok (gic', cpu')) :
    Accounted (gic', cpu') K := by
  obtain ⟨hcpu, hm⟩ := maintenanceInterruptHandler_maintained he hx
  constructor
  · rw [hcpu]
    refine h.tracked.maintained (s := (gic, cpu.lr)) hm rfl fun n hn => ?_
    obtain ⟨hnK, hbits⟩ := hn
    rcases hbits with hb | hb
    · obtain ⟨hb', hne⟩ := (hm.pendingBit n).mp hb
      exact ⟨⟨hnK, .inl hb'⟩, fun j hj hr => hne j ⟨hj, hr⟩⟩
    · obtain ⟨hb', hne⟩ := (hm.activeBit n).mp hb
      exact ⟨⟨hnK, .inr hb'⟩, fun j hj hr => hne j ⟨hj, hr⟩⟩
  · obtain ⟨_, _, hd⟩ := hm.distributor
    obtain ⟨_, _, hr⟩ := hm.redistributor
    have hq := h.queued
    simp only at hd hr hq ⊢
    rw [hd, hr]
    exact hq

theorem Accounted.endOfInterrupt (h : Accounted (gic, cpu) K) (i : ℕ) :
    Accounted (gic, { cpu with lr := Function.update cpu.lr i (Vgic.endOfInterrupt (cpu.lr i)) })
      (K ∪ (GicEvent.endOfInterrupt i).completes cpu) := by
  refine ⟨?_, h.queued⟩
  refine Tracked.update ⟨h.tracked.unused, h.tracked.reporting, fun n hn => ?_⟩
    isInactive_endOfInterrupt (vIntId_endOfInterrupt _) (isReporting_endOfInterrupt _)
  obtain ⟨hnK | ⟨hact, rfl⟩, hbits⟩ := hn
  · exact h.tracked.register n ⟨hnK, hbits⟩
  · -- A register with an interrupt that is active reports its completion.
    have hin : isInactive (cpu.lr i) = false := by
      rw [Bool.eq_false_iff, ne_eq, isInactive_iff]
      intro h0
      refine hact ?_
      rw [show ichLrnEl2StatusActive = ichLrnEl2Status &&& ichLrnEl2StatusActive by decide,
        ← BitVec.and_assoc, h0, BitVec.zero_and]
    exact ⟨i, h.tracked.unused.lt hin, rfl, h.tracked.reporting i hin⟩

end Step

/-! ## Runs -/

/-- Every event that meets the condition keeps the invariant. -/
theorem Accounted.step {s s' : Gic × Cpu} {K : Set ℕ} (h : Accounted s K) {e : GicEvent}
    (hp : e.Possible s.2) (hc : e.KeepsCompletions s) (he : e.exec s = .ok s') :
    Accounted s' (K \ e.renews s.1 ∪ e.completes s.2) := by
  obtain ⟨gic, cpu⟩ := s
  have hdiff : ∀ {L : Set ℕ}, Accounted (gic, cpu) (K \ L) := fun {L} =>
    h.mono (fun _ => id) (fun m hm => ⟨hm.1, id, id⟩) h.queued
  by_cases heoi : ∃ i, e = .endOfInterrupt i
  · obtain ⟨i, rfl⟩ := heoi
    cases he
    exact hdiff.endOfInterrupt i
  have hnone : e.completes cpu = ∅ := by
    cases e with
    | endOfInterrupt i => exact absurd ⟨i, rfl⟩ heoi
    | _ => rfl
  rw [hnone, Set.union_empty]
  cases e with
  | endOfInterrupt i => exact absurd ⟨i, rfl⟩ heoi
  | distributorTrigger n p =>
    obtain ⟨⟨d, cpu'⟩, hx, hs⟩ := Exec.bind_eq_ok.mp he
    cases hs
    exact hdiff.distributorTrigger (fun hn => hn.2 (Set.mem_singleton n)) hc hx
  | distributorTriggerOn other n p =>
    obtain ⟨⟨d, cpu'⟩, hx, hs⟩ := Exec.bind_eq_ok.mp he
    cases hs
    exact hdiff.distributorTriggerOn (fun hn => hn.2 (Set.mem_singleton n)) hc hx
  | redistributorTrigger n p =>
    obtain ⟨⟨r, cpu'⟩, hx, hs⟩ := Exec.bind_eq_ok.mp he
    cases hs
    exact hdiff.redistributorTrigger (fun hn => hn.2 (Set.mem_singleton n)) hc hx
  | redistributorTriggerOn other n p =>
    obtain ⟨⟨r, cpu'⟩, hx, hs⟩ := Exec.bind_eq_ok.mp he
    cases hs
    exact hdiff.redistributorTriggerOn (fun hn => hn.2 (Set.mem_singleton n)) hc hx
  | distributorWrite offset w value =>
    obtain ⟨⟨d, cpu'⟩, hx, hs⟩ := Exec.bind_eq_ok.mp he
    cases hs
    exact h.distributorWrite hp hc hx
  | redistributorWrite offset w value =>
    obtain ⟨⟨r, cpu'⟩, hx, hs⟩ := Exec.bind_eq_ok.mp he
    cases hs
    exact h.redistributorWrite hc hx
  | injectInterruptHandler =>
    cases he
    exact hdiff.injectInterruptHandler hc
  | maintenanceInterruptHandler eoiBits =>
    exact hdiff.maintenanceInterruptHandler hp he
  | acknowledge i =>
    cases he
    exact hdiff.mono (fun N ht => ht.update (fun hi => by rwa [isInactive_acknowledge])
      (vIntId_acknowledge _) (isReporting_acknowledge _)) (fun m hm => ⟨hm, id, id⟩) h.queued

theorem gicRun_accounted {s : Gic × Cpu} {K : Set ℕ} (h : GicRun GicEvent.KeepsCompletions s K) :
    Accounted s K := by
  induction h with
  | start gic cpu hl hd hr =>
    refine ⟨⟨fun i _ => hl i, fun i hi => ?_, fun n hn => absurd hn.1 (Set.notMem_empty n)⟩, ?_⟩
    · exact absurd (hi.symm.trans (hl i)) (by decide)
    · intro e he
      simp only [hd, hr] at he
      cases he
  | step e _ hp hc he ih => exact ih.step hp hc he

/-- In every run whose events lose no completion, no completed interrupt leaves a pending or active bit
behind. -/
theorem gicRun_noStale {s : Gic × Cpu} {K : Set ℕ} (h : GicRun GicEvent.KeepsCompletions s K) :
    NoStale s K :=
  (gicRun_accounted h).noStale

theorem isEisr_of_lt {v eoiBits : BitVec 64} {lr : ListRegisters}
    (hlt : eoiBits.toNat < 2 ^ numberOfLrn v)
    (h : ∀ i < numberOfLrn v, eoiBits.getLsbD i = eoiReported (lr i)) : IsEisr v lr eoiBits := by
  intro i
  by_cases hi : i < numberOfLrn v
  · rw [h i hi, decide_eq_true hi, Bool.true_and]
  · rw [decide_eq_false hi, Bool.false_and, Bool.eq_false_iff]
    exact fun hb => hi (DistributorAccess.lt_of_getLsbD hlt hb)

/-- The guest has enabled both controllers, the timer interrupt, and the SPIs 33 and 40, which are
routed to the CPU with affinity 0. -/
def enabledGic : Gic where
  distributor := { GicDistributorMmio.new with
    ctlr := gicdCtlrAreS ||| gicdCtlrEnableGrp1ns, enable := .fill 0x102 }
  redistributor := { GicRedistributorMmio.new 0 with waker := 0, enable := 1#32 <<< 27 }

/-- SPI 33 is triggered, acknowledged and completed, and the maintenance handler runs. -/
theorem gicRun_noStale_spi :
    ∃ s K, GicRun GicEvent.KeepsCompletions s K ∧ IsEisr s.2.ichVtrEl2 s.2.lr 0 ∧ 33 ∈ K ∧
      NoStale s K := by
  have h₀ := GicRun.start (C := GicEvent.KeepsCompletions) enabledGic twoListRegisters
    (fun _ => isInactive_zero) rfl rfl
  have h₁ := GicRun.step (.distributorTrigger 33 none) h₀ trivial
    (fun _ => ⟨rfl, fun _ _ _ hr => absurd (show eoiReported 0#64 = true from hr) (by decide)⟩) rfl
  have h₂ := GicRun.step (.acknowledge 0) h₁ (show 0 < numberOfLrn 1 by decide) trivial rfl
  have h₃ := GicRun.step (.endOfInterrupt 0) h₂ (show 0 < numberOfLrn 1 by decide) trivial rfl
  have h₄ := GicRun.step (.maintenanceInterruptHandler 1) h₃
    (isEisr_of_lt (by decide) (by decide)) trivial rfl
  exact ⟨_, _, h₄, isEisr_of_lt (by decide) (by decide), .inl ⟨.inr ⟨by decide, rfl⟩, id⟩,
    gicRun_noStale h₄⟩

/-- A completed interrupt that is pending although the processor reports nothing and it is nowhere else. -/
theorem not_noStale {s : Gic × Cpu} {K : Set ℕ} {n : ℕ}
    (hlr : ∀ i < numberOfLrn s.2.ichVtrEl2, eoiReported (s.2.lr i) = false ∧
      isInactive (s.2.lr i) = true)
    (hq : s.1.distributor.toInjectInterrupt ++ s.1.redistributor.toInjectInterrupt = [])
    (hn : n ∈ K) (hp : s.1.pendingBit n = true) : ¬NoStale s K := by
  intro h
  have heisr : IsEisr s.2.ichVtrEl2 s.2.lr 0 :=
    isEisr_of_lt (Nat.two_pow_pos _) fun i hi => by simp [(hlr i hi).1]
  have hin : ∀ i < numberOfLrn s.2.ichVtrEl2, isInactive (s.2.lr i) = false →
      (vIntId (s.2.lr i)).toNat ≠ n :=
    fun i hi ha => absurd (ha.symm.trans (hlr i hi).2) (by decide)
  have hpend := (h heisr n hn hin (by simp [hq])).1
  exact absurd (hp.symm.trans hpend) (by decide)

/-- The timer interrupt is delivered with its physical INTID : after the guest has completed it, its
pending bit is still set. And SPI 33 is completed, but its list register taken by SPI 40 before the
maintenance handler runs : its pending bit is never cleared. -/
theorem gicRun_stale :
    (∃ s K, GicRun (fun _ _ => True) s K ∧ 27 ∈ K ∧ ¬NoStale s K) ∧
    ∃ s K, GicRun (fun _ _ => True) s K ∧ 33 ∈ K ∧ ¬NoStale s K := by
  have h₀ := GicRun.start (C := fun _ _ => True) enabledGic twoListRegisters
    (fun _ => isInactive_zero) rfl rfl
  have h1 : 0 < numberOfLrn 1 := by decide
  constructor
  · have h₁ := GicRun.step (.redistributorTrigger 27 (some 27)) h₀ trivial trivial rfl
    have h₂ := GicRun.step (.acknowledge 0) h₁ h1 trivial rfl
    have h₃ := GicRun.step (.endOfInterrupt 0) h₂ h1 trivial rfl
    exact ⟨_, _, h₃, .inr ⟨by decide, rfl⟩,
      not_noStale (by decide) rfl (.inr ⟨by decide, rfl⟩) rfl⟩
  · have h₁ := GicRun.step (.distributorTrigger 33 none) h₀ trivial trivial rfl
    have h₂ := GicRun.step (.acknowledge 0) h₁ h1 trivial rfl
    have h₃ := GicRun.step (.endOfInterrupt 0) h₂ h1 trivial rfl
    have h₄ := GicRun.step (.distributorTrigger 40 none) h₃ trivial trivial rfl
    have h₅ := GicRun.step (.acknowledge 0) h₄ h1 trivial rfl
    have h₆ := GicRun.step (.endOfInterrupt 0) h₅ h1 trivial rfl
    have h₇ := GicRun.step (.maintenanceInterruptHandler 1) h₆
      (isEisr_of_lt (by decide) (by decide)) trivial rfl
    have h40 : 33 ∉ ({40} : Set ℕ) := by simp
    exact ⟨_, _, h₇, .inl ⟨.inl ⟨.inl ⟨.inl ⟨.inr ⟨by decide, rfl⟩, h40⟩, id⟩, id⟩, id⟩,
      not_noStale (by decide) rfl (.inl ⟨.inl ⟨.inl ⟨.inl ⟨.inr ⟨by decide, rfl⟩, h40⟩, id⟩, id⟩, id⟩)
        rfl⟩

end MiniVisor
