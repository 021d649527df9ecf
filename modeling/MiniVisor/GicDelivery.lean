import MiniVisor.GicStale

/-!
# No interrupt is lost

`trigger_interrupt` makes an SPI pending and hands it on at once. An SPI that is pending and may be
delivered should therefore be in a list register or in the queue for another CPU. `GicSystem` is a
VM with the CPUs on which code runs for it, and `Lossless` is that statement for all of its SPIs.

The pending bit of an interrupt that the guest has completed stays until the maintenance handler
runs, so `SystemRun` keeps the INTIDs that are completed and have not become pending again.
Interrupts are lost in two ways : all list registers are in use, or a write to `GICD_CTLR` or
`GICD_IGRPMODR` allows the delivery of an interrupt that is pending already, which only the writes
to `GICD_ISENABLER` and `GICD_ISPENDR` look at. `Delivered` excludes both. -/

namespace MiniVisor

open Machine Vgic

/-! ## List registers -/

namespace Vgic

/-- INTID `n` is in a list register that is not inactive. -/
def Holds (v : BitVec 64) (lr : ListRegisters) (n : ℕ) : Prop :=
  ∃ i < supportedLrn v, isInactive (lr i) = false ∧ (vIntId (lr i)).toNat = n

variable {v : BitVec 64} {lr lr' : ListRegisters} {n : ℕ}

/-- Registers in use that stay in use with their INTIDs. -/
theorem Holds.mono (h : Holds v lr n) (hkept : ∀ i, isInactive (lr i) = false →
    (vIntId (lr i)).toNat = n → isInactive (lr' i) = false ∧ vIntId (lr' i) = vIntId (lr i)) :
    Holds v lr' n := by
  obtain ⟨i, hi, hin, hid⟩ := h
  obtain ⟨hin', hid'⟩ := hkept i hin hid
  exact ⟨i, hi, hin', by rw [hid', hid]⟩

/-- One register changes, and keeps the INTID if it holds it. -/
theorem Holds.update (h : Holds v lr n) {i : ℕ} {r : BitVec 64} (hr : isInactive (lr i) = false →
    (vIntId (lr i)).toNat = n → isInactive r = false ∧ vIntId r = vIntId (lr i)) :
    Holds v (Function.update lr i r) n := by
  refine h.mono fun j hin hid => ?_
  by_cases hj : j = i
  · subst hj
    rw [Function.update_self]
    exact hr hin hid
  · rw [Function.update_of_ne hj]
    exact ⟨hin, rfl⟩

/-- Adding an entry takes no other INTID out. -/
theorem Holds.addVirtualInterrupt (h : Holds v lr n) (e : BitVec 64) :
    Holds v (addVirtualInterrupt v lr e) n := by
  unfold Vgic.addVirtualInterrupt
  cases hk : slotFor v lr e with
  | none => exact h
  | some k =>
    dsimp only
    split_ifs with hfree
    · exact h.update fun hin _ => absurd (hfree.symm.trans hin) (by decide)
    · exact h.update fun _ _ => ⟨isInactive_or_pending _, vIntId_or_pending _⟩

theorem Holds.injectAll (queue : List (BitVec 64)) {lr : ListRegisters} (h : Holds v lr n) :
    Holds v (injectAll v lr queue) n := by
  induction queue generalizing lr with
  | nil => exact h
  | cons e queue ih => exact ih (h.addVirtualInterrupt e)

/-- An entry that finds a list register is in it then. -/
theorem holds_addVirtualInterrupt {e : BitVec 64} (he : isInactive e = false)
    (hs : (slotFor v lr e).isSome) : Holds v (addVirtualInterrupt v lr e) (vIntId e).toNat := by
  obtain ⟨k, hk⟩ := Option.isSome_iff_exists.mp hs
  obtain ⟨hlt, hslot, -⟩ := slotFor_eq_some.mp hk
  refine ⟨k, hlt, ?_⟩
  simp only [Vgic.addVirtualInterrupt, hk]
  split_ifs with hfree
  · rw [Function.update_self]
    exact ⟨he, rfl⟩
  · rw [Function.update_self, vIntId_or_pending, hslot.resolve_left hfree]
    exact ⟨isInactive_or_pending _, rfl⟩

theorem isInactive_or {r s : BitVec 64} (h : isInactive r = false) : isInactive (r ||| s) = false := by
  rw [Bool.eq_false_iff, ne_eq, isInactive_iff] at h ⊢
  intro h0
  rw [BitVec.and_comm, BitVec.and_or_distrib_left, BitVec.or_eq_zero_iff] at h0
  exact h (BitVec.and_comm .. ▸ h0.1)

theorem isInactive_createListRegisterEntry (intId group priority : BitVec 32) (p : Option (BitVec 32)) :
    isInactive (createListRegisterEntry intId group priority p) = false := by
  have hpending : isInactive ichLrnEl2StatusPending = false := by decide
  cases p <;> exact isInactive_or (isInactive_or (isInactive_or (isInactive_or hpending)))

theorem endOfInterrupt_of_not_active {r : BitVec 64} (h : r &&& ichLrnEl2StatusActive = 0#64) :
    endOfInterrupt r = r := by
  have hsub : ichLrnEl2Status &&& ichLrnEl2StatusActive = ichLrnEl2StatusActive := by decide
  have hne : ∀ s, r &&& ichLrnEl2Status = s → s &&& ichLrnEl2StatusActive = 0#64 := by
    rintro s rfl
    rw [BitVec.and_assoc, hsub, h]
  unfold endOfInterrupt
  rw [if_neg fun hs => absurd (hne _ hs) (by decide), if_neg fun hs => absurd (hne _ hs) (by decide)]

end Vgic

/-! ## The statement and the condition -/

/-- An entry for INTID `n` is in the queue of the distributor. -/
def GicDistributorMmio.Queues (d : GicDistributorMmio) (n : ℕ) : Prop :=
  ∃ e ∈ d.toInjectInterrupt, isInactive e = false ∧ (vIntId e).toNat = n

/-- Every SPI that is pending and can be delivered is in a list register, in the queue of the
distributor, or in `X`. -/
def Lossless (s : Gic × Cpu) (X : Set ℕ) : Prop :=
  ∀ n, 32 ≤ n → n < 1020 → s.1.distributor.pending.bit n = true → s.1.distributor.Delivers n →
    Holds s.2.ichVtrEl2 s.2.lr n ∨ s.1.distributor.Queues n ∨ n ∈ X

instance (d : GicDistributorMmio) (n : ℕ) : Decidable (d.Delivers n) :=
  inferInstanceAs (Decidable (_ ∧ _ ∧ _ ∧ _))

/-- An interrupt that a trigger of `n` on `cpu` hands to the list registers finds one, or it is in
the queue or in `E` already. -/
def GicDistributorMmio.TriggerFits (d : GicDistributorMmio) (cpu : Cpu) (E : Set ℕ) (n : ℕ)
    (p : Option (BitVec 32)) : Prop :=
  d.Delivers n → sameAffinity (d.router.reg n) cpu.mpidrEl1 →
    (slotFor cpu.ichVtrEl2 cpu.lr (d.listEntry n p)).isSome ∨ d.Queues n ∨ n ∈ E

/-- The same for an iteration of a bit scan. -/
def GicDistributorMmio.ScanFits (test : GicDistributorMmio → ℕ → Exec Bool) (E : Set ℕ) :
    (ℕ × BitVec 64) × GicDistributorMmio × Cpu → Prop
  | ((intId, value), d, cpu) =>
    value.getLsbD 0 = true → test d intId = .ok true → d.TriggerFits cpu E intId none

/-- Each entry of a queue finds a list register, or its interrupt is in `E` already. -/
def FitsAll (v : BitVec 64) (E : Set ℕ) : ListRegisters → List (BitVec 64) → Prop
  | _, [] => True
  | lr, e :: queue => ((slotFor v lr e).isSome ∨ (vIntId e).toNat ∈ E) ∧
    FitsAll v E (addVirtualInterrupt v lr e) queue

/-- No interrupt that is pending can be delivered only now, except for those in a list register of
`cpu`, in the queue or in `X`. -/
def GicDistributorMmio.AllowsNone (d : GicDistributorMmio) (cpu : Cpu) (X : Set ℕ)
    (d' : GicDistributorMmio) : Prop :=
  ∀ n, 32 ≤ n → n < 1020 → d.pending.bit n = true → d'.Delivers n →
    d.Delivers n ∨ Holds cpu.ichVtrEl2 cpu.lr n ∨ d.Queues n ∨ n ∈ X

namespace GicEvent

/-- No SPI that is handed on in the event is dropped for want of a list register, and the event
allows the delivery of no SPI that is pending already without handing it on. This is not asked of an
SPI that another CPU has in a list register (`E`), or that is in the queue, and the second not of
one that is in a list register or that the guest has completed (`K`). -/
def Delivered : GicEvent → Gic × Cpu → Set ℕ → Set ℕ → Prop
  | distributorTrigger intId p, (gic, cpu), E, _ => gic.distributor.TriggerFits cpu E intId p
  | distributorWrite offset w value, ({ distributor := d, .. }, cpu), E, K => w = 32 →
    (offset = gicdCtlr → d.AllowsNone cpu (E ∪ K) { d with ctlr := value.setWidth 32 }) ∧
    (GicDistributorMmio.inWindow gicdIgrpmodr0 gicdIgrpmodr31 offset → d.AllowsNone cpu (E ∪ K)
      { d with groupModifier :=
        d.groupModifier.update ((offset - gicdIgrpmodr0) / 4) (value.setWidth 32) }) ∧
    (GicDistributorMmio.inWindow gicdIsenabler0 gicdIsenabler31 offset →
      let i := (offset - gicdIsenabler0) / 4
      let d := { d with enable := d.enable.update i (d.enable.reg i ||| value.setWidth 32) }
      Throughout (GicDistributorMmio.scanStep GicDistributorMmio.getPending)
        (GicDistributorMmio.ScanFits GicDistributorMmio.getPending E) 65 ((i * 32, value), d, cpu)) ∧
    (GicDistributorMmio.inWindow gicdIspendr0 gicdIspendr31 offset →
      let i := (offset - gicdIspendr0) / 4
      let d := { d with pending := d.pending.update i (d.pending.reg i ||| value.setWidth 32) }
      Throughout (GicDistributorMmio.scanStep GicDistributorMmio.getEnable)
        (GicDistributorMmio.ScanFits GicDistributorMmio.getEnable E) 65 ((i * 32, value), d, cpu))
  | injectInterruptHandler, (gic, cpu), E, _ =>
    FitsAll cpu.ichVtrEl2 E cpu.lr gic.distributor.toInjectInterrupt
  | _, _, _, _ => True

/-- The SPIs that an event triggers, or sets pending. Enabling an interrupt triggers it if it is
pending. -/
def pends (gic : Gic) : GicEvent → Set ℕ
  | distributorTrigger intId _ => {intId}
  | distributorWrite offset w value => {n |
    (WrittenBit gicdIsenabler0 gicdIsenabler31 offset w value n ∧
      gic.distributor.pending.bit n = true) ∨
    WrittenBit gicdIspendr0 gicdIspendr31 offset w value n}
  | _ => ∅

/-- The event is one of the CPU it runs on. -/
def Local : GicEvent → Prop
  | distributorTriggerOn _ _ _ => False
  | redistributorTriggerOn _ _ _ => False
  | _ => True

end GicEvent

/-- The controller of a VM, and the CPUs on which code runs for it. -/
structure GicSystem (ι : Type) where
  gic : Gic
  cpus : ι → Cpu

/-- The INTIDs in list registers of the other CPUs. -/
def GicSystem.elsewhere {ι : Type} (s : GicSystem ι) (c : ι) : Set ℕ :=
  {n | ∃ c', c' ≠ c ∧ Holds (s.cpus c').ichVtrEl2 (s.cpus c').lr n}

/-- The states of the runs in which every event meets `C`, from a state in which nothing is pending.
The set holds the INTIDs that the guest has completed and that have not become pending since. -/
inductive SystemRun {ι : Type} [DecidableEq ι] (C : GicEvent → Gic × Cpu → Set ℕ → Set ℕ → Prop) :
    GicSystem ι → Set ℕ → Prop
  | start (gic : Gic) (cpus : ι → Cpu) (hn : ∀ n, gic.distributor.pending.bit n = false) :
      SystemRun C ⟨gic, cpus⟩ ∅
  | step {s : GicSystem ι} {K : Set ℕ} {gic : Gic} {cpu : Cpu} (c : ι) (e : GicEvent)
      (hr : SystemRun C s K) (hl : e.Local) (hp : e.Possible (s.cpus c))
      (hc : C e (s.gic, s.cpus c) (s.elsewhere c) K) (he : e.exec (s.gic, s.cpus c) = .ok (gic, cpu)) :
      SystemRun C ⟨gic, Function.update s.cpus c cpu⟩ (K \ e.pends s.gic ∪ e.completes (s.cpus c))

/-! ## Triggers -/

section Step

variable {gic gic' : Gic} {cpu cpu' : Cpu} {X X' E K : Set ℕ} {n : ℕ} {p : Option (BitVec 32)}

/-- Nothing becomes pending or deliverable, and what is in a list register or the queue stays there. -/
theorem Lossless.mono (h : Lossless (gic, cpu) X)
    (hn : ∀ n, 32 ≤ n → n < 1020 → gic'.distributor.pending.bit n = true → gic'.distributor.Delivers n →
      gic.distributor.pending.bit n = true ∧ gic.distributor.Delivers n)
    (hh : ∀ n, Holds cpu.ichVtrEl2 cpu.lr n → Holds cpu'.ichVtrEl2 cpu'.lr n ∨ n ∈ X')
    (hq : ∀ e ∈ gic.distributor.toInjectInterrupt, e ∈ gic'.distributor.toInjectInterrupt)
    (hX : ∀ n, gic'.distributor.pending.bit n = true → n ∈ X → n ∈ X') : Lossless (gic', cpu') X' := by
  intro n h32 hlt hp hd
  obtain ⟨hp', hd'⟩ := hn n h32 hlt hp hd
  obtain hheld | ⟨e, he, hentry⟩ | hx := h n h32 hlt hp' hd'
  · exact (hh n hheld).imp_right Or.inr
  · exact .inr (.inl ⟨e, hq e he, hentry⟩)
  · exact .inr (.inr (hX n hp hx))

theorem GicDistributorMmio.vIntId_listEntry (d : GicDistributorMmio) (hn : n < 1024) :
    (vIntId (d.listEntry n p)).toNat = n := by
  rw [listEntry, vIntId_createListRegisterEntry, BitVec.toNat_setWidth, BitVec.toNat_ofNat]
  omega

theorem GicDistributorMmio.isInactive_listEntry (d : GicDistributorMmio) :
    isInactive (d.listEntry n p) = false :=
  isInactive_createListRegisterEntry ..

/-- A trigger of `n` hands `n` on, or leaves it as one that cannot be delivered. -/
theorem Lossless.distributorTrigger (h : Lossless (gic, cpu) (insert n X)) (hE : E ⊆ X)
    (hc : gic.distributor.TriggerFits cpu E n p) {d : GicDistributorMmio}
    (he : gic.distributor.triggerInterrupt cpu n p = .ok (d, cpu')) :
    Lossless ({ gic with distributor := d }, cpu') X := by
  -- Other INTIDs are as they were.
  have hother : ∀ m, m ≠ n → 32 ≤ m → m < 1020 →
      (gic.distributor.setPending n).pending.bit m = true → gic.distributor.Delivers m →
      Holds cpu.ichVtrEl2 cpu.lr m ∨ gic.distributor.Queues m ∨ m ∈ X := by
    intro m hm h32 hlt hp hd
    rw [GicDistributorMmio.setPending_bit, decide_eq_false hm, Bool.or_false] at hp
    exact (h m h32 hlt hp hd).imp_right (Or.imp_right fun hx => hx.resolve_left hm)
  intro m h32 hlt hp hd
  obtain ⟨hoff, rfl, rfl⟩ | ⟨-, hnot, rfl, rfl⟩ | ⟨hn, hdel, hroute, rfl, rfl⟩ | ⟨hn, hdel, -, rfl, rfl⟩ :=
    GicDistributorMmio.triggerInterrupt_cases he
  · exact absurd hoff hd.1
  · exact hother m (fun hm => hnot (hm ▸ hd)) h32 hlt hp hd
  · by_cases hm : m = n
    · subst hm
      obtain hslot | hq | hx := hc hdel hroute
      · have hheld := holds_addVirtualInterrupt gic.distributor.isInactive_listEntry hslot
        rw [gic.distributor.vIntId_listEntry (by omega)] at hheld
        exact .inl hheld
      · exact .inr (.inl hq)
      · exact .inr (.inr (hE hx))
    · exact (hother m hm h32 hlt hp hd).imp_left fun hheld => hheld.addVirtualInterrupt _
  · by_cases hm : m = n
    · subst hm
      exact .inr (.inl ⟨_, List.mem_append_right _ (List.mem_singleton_self _),
        gic.distributor.isInactive_listEntry, gic.distributor.vIntId_listEntry (by omega)⟩)
    · obtain hheld | ⟨e, hmem, hentry⟩ | hx := hother m hm h32 hlt hp hd
      · exact .inl hheld
      · exact .inr (.inl ⟨e, List.mem_append_left _ hmem, hentry⟩)
      · exact .inr (.inr hx)

theorem Lossless.redistributorTrigger (h : Lossless (gic, cpu) X) {r : GicRedistributorMmio}
    (he : gic.redistributor.triggerInterrupt cpu n p = .ok (r, cpu')) :
    Lossless ({ gic with redistributor := r }, cpu') X := by
  obtain ⟨-, rfl, rfl⟩ | ⟨-, -, rfl, rfl⟩ | ⟨-, -, -, rfl, rfl⟩ | ⟨-, -, -, rfl, rfl⟩ :=
    GicRedistributorMmio.triggerInterrupt_cases he
  · exact h
  · exact h
  · exact h.mono (fun _ _ _ hp hd => ⟨hp, hd⟩) (fun _ hh => .inl (hh.addVirtualInterrupt _)) (fun _ => id)
      fun _ _ => id
  · exact h

/-! ## Bit scans -/

theorem Lossless.subset (h : Lossless (gic, cpu) X) (hX : X ⊆ X') : Lossless (gic, cpu) X' :=
  h.mono (fun _ _ _ hp hd => ⟨hp, hd⟩) (fun _ => .inl) (fun _ => id) fun _ _ hx => hX hx

/-- An iteration triggers its interrupt if both bits are set. -/
theorem GicDistributorMmio.scanBit_eq {test : GicDistributorMmio → ℕ → Exec Bool}
    {T : GicDistributorMmio → ℕ → Bool} (hT : IsTest test T) {d : GicDistributorMmio} {value : BitVec 64}
    (hn : value.getLsbD 0 = true → n < 1024) : scanBit d test cpu n value =
      if value.getLsbD 0 = true ∧ T d n = true then d.triggerInterrupt cpu n none else .ok (d, cpu) := by
  simp only [scanBit, and_one_eq_zero]
  cases hb : value.getLsbD 0
  · simp
  · simp [hT.eq d n (hn hb)]

/-- A scan of the distributor hands on the INTIDs it comes to. -/
theorem Lossless.distributorScan {test : GicDistributorMmio → ℕ → Exec Bool}
    {T : GicDistributorMmio → ℕ → Bool} (hT : GicDistributorMmio.IsTest test T)
    {d d' : GicDistributorMmio} {value : BitVec 64}
    (hlt : ∀ b, value.getLsbD b = true → n + b < 1024) (hE : E ⊆ X)
    (h : Lossless ({ gic with distributor := d }, cpu)
      (X ∪ {m | ∃ b, value.getLsbD b = true ∧ m = n + b ∧ T d m = true}))
    (hc : Throughout (GicDistributorMmio.scanStep test) (GicDistributorMmio.ScanFits test E) 65
      ((n, value), d, cpu))
    (hs : d.scan test cpu n value = .ok (d', cpu')) :
    Lossless ({ gic with distributor := d' }, cpu') X := by
  let I : (ℕ × BitVec 64) × GicDistributorMmio × Cpu → Prop := fun s =>
    (∀ b, s.1.2.getLsbD b = true → s.1.1 + b < 1024) ∧
      Lossless ({ gic with distributor := s.2.1 }, s.2.2)
        (X ∪ {m | ∃ b, s.1.2.getLsbD b = true ∧ m = s.1.1 + b ∧ T s.2.1 m = true})
  have hnext : ∀ s s', I s → GicDistributorMmio.ScanFits test E s →
      GicDistributorMmio.scanStep test s = .ok (.next s') → I s' := by
    rintro ⟨⟨k, v⟩, d, cpu⟩ s' ⟨hk, hI⟩ hC hstep
    have hlt : v.getLsbD 0 = true → k < 1024 := hk 0
    change Lossless _ (X ∪ {m | ∃ b, v.getLsbD b = true ∧ m = k + b ∧ T d m = true}) at hI
    refine Exec.ok_of_ite hstep (fun _ hstep => by cases hstep) fun _ hstep => ?_
    obtain ⟨⟨d₁, cpu₁⟩, hbit, hstep⟩ := Exec.bind_eq_ok.mp hstep
    cases hstep
    have hshift : ∀ b, (v >>> 1).getLsbD b = v.getLsbD (b + 1) := fun b => by
      rw [BitVec.getLsbD_ushiftRight, Nat.add_comm]
    refine ⟨fun b hb => ?_, ?_⟩
    · have hlt : k + (b + 1) < 1024 := hk (b + 1) (hshift b ▸ hb)
      dsimp only
      omega
    change Lossless _ (X ∪ {m | ∃ b, (v >>> 1).getLsbD b = true ∧ m = k + 1 + b ∧ T d₁ m = true})
    rw [GicDistributorMmio.scanBit_eq hT hlt] at hbit
    split_ifs at hbit with hfire
    · obtain ⟨hkeeps, hpend⟩ := GicDistributorMmio.triggerInterrupt_keeps (hlt hfire.1) hbit
      have htest : test d k = .ok true := by rw [hT.eq d k (hlt hfire.1), hfire.2]
      refine Lossless.distributorTrigger (hI.subset ?_) (hE.trans Set.subset_union_left)
        (hC hfire.1 htest) hbit
      rintro m (hx | ⟨b, hb, rfl, htest⟩)
      · exact .inr (.inl hx)
      · cases b with
        | zero => exact .inl rfl
        | succ b =>
          refine .inr (.inr ⟨b, (hshift b).trans hb, by omega, ?_⟩)
          rwa [hT.keeps d d₁ cpu cpu₁ k _ (by omega) hkeeps hpend]
    · cases hbit
      refine hI.subset ?_
      rintro m (hx | ⟨b, hb, rfl, htest⟩)
      · exact .inl hx
      · cases b with
        | zero => exact absurd ⟨hb, htest⟩ hfire
        | succ b => exact .inr ⟨b, (hshift b).trans hb, by omega, htest⟩
  have hdone : ∀ s r, I s → GicDistributorMmio.ScanFits test E s →
      GicDistributorMmio.scanStep test s = .ok (.done r) →
      Lossless ({ gic with distributor := r.1 }, r.2) X := by
    rintro ⟨⟨k, v⟩, d, cpu⟩ r ⟨-, hI⟩ - hstep
    refine Exec.ok_of_ite hstep (fun hv hstep => ?_) fun _ hstep => ?_
    · cases hstep
      refine hI.mono (fun _ _ _ hp hd => ⟨hp, hd⟩) (fun _ => .inl) (fun _ => id) fun m _ hm => ?_
      obtain hx | ⟨b, hb, -, -⟩ := hm
      · exact hx
      · rw [hv, BitVec.getLsbD_zero] at hb
        cases hb
    · obtain ⟨_, -, hstep⟩ := Exec.bind_eq_ok.mp hstep
      cases hstep
  exact loop_ok hnext hdone 65 _ ⟨hlt, h⟩ hc hs

/-! ## Guest writes -/

theorem GicDistributorMmio.write_isenabler_window {d : GicDistributorMmio} {offset : ℕ} {value : BitVec 64}
    (ho : inWindow gicdIsenabler0 gicdIsenabler31 offset) : d.write cpu offset 32 value =
      (d.enable.modify ((offset - gicdIsenabler0) / 4) (· ||| value.setWidth 32) >>= fun enable =>
        scan { d with enable } getPending cpu ((offset - gicdIsenabler0) / 4 * 32) value) := by
  have hlo : 0x100 ≤ offset := ho.1
  unfold write
  rw [if_neg (fun h => by simp only [gicdCtlr] at h; omega),
    if_neg (fun h => by simp only [inWindow, gicdIgroupr31] at h; omega), if_pos ⟨ho, rfl⟩]

theorem GicDistributorMmio.write_ispendr_window {d : GicDistributorMmio} {offset : ℕ} {value : BitVec 64}
    (ho : inWindow gicdIspendr0 gicdIspendr31 offset) : d.write cpu offset 32 value =
      (d.pending.modify ((offset - gicdIspendr0) / 4) (· ||| value.setWidth 32) >>= fun pending =>
        scan { d with pending } getEnable cpu ((offset - gicdIspendr0) / 4 * 4 * 8) value) := by
  have hlo : 0x200 ≤ offset := ho.1
  unfold write
  rw [if_neg (fun h => by simp only [gicdCtlr] at h; omega),
    if_neg (fun h => by simp only [inWindow, gicdIgroupr31] at h; omega),
    if_neg (fun h => by simp only [inWindow, gicdIsenabler31] at h; omega),
    if_neg (fun h => by simp only [inWindow, gicdIcenabler31] at h; omega), if_pos ⟨ho, rfl⟩]

theorem Lossless.distributorWrite (h : Lossless (gic, cpu) (E ∪ K)) {offset w : ℕ} {value : BitVec 64}
    (hv : value.toNat < 2 ^ w) (hE : E ⊆ X')
    (hX : (E ∪ K) \ (GicEvent.distributorWrite offset w value).pends gic ⊆ X')
    (hc : (GicEvent.distributorWrite offset w value).Delivered (gic, cpu) E K) {d : GicDistributorMmio}
    (he : gic.distributor.write cpu offset w value = .ok (d, cpu')) :
    Lossless ({ gic with distributor := d }, cpu') X' := by
  by_cases hen : GicDistributorMmio.inWindow gicdIsenabler0 gicdIsenabler31 offset ∧ w = 32
  · obtain ⟨ho, rfl⟩ := hen
    rw [GicDistributorMmio.write_isenabler_window ho] at he
    obtain ⟨enable, hm, hs⟩ := Exec.bind_eq_ok.mp he
    obtain ⟨hi, rfl⟩ := Bank.modify_eq_ok.mp hm
    refine Lossless.distributorScan GicDistributorMmio.isTest_getPending (fun b hb => ?_) hE
      (fun m h32 hlt hp hd => ?_) ((hc rfl).2.2.1 ho) hs
    · have hb32 := DistributorAccess.lt_of_getLsbD hv hb
      omega
    · by_cases hw : WrittenBit gicdIsenabler0 gicdIsenabler31 offset 32 value m
      · exact .inr (.inr (.inr ⟨_, hw.2.2.2, (Nat.add_sub_cancel' hw.2.2.1).symm, hp⟩))
      · -- It was enabled before.
        have hbit := bit_of_not_writtenBit rfl ho hw hd.2.1
        refine (h m h32 hlt hp ⟨hd.1, hbit, hd.2.2⟩).imp_right (Or.imp_right fun hx => .inl (hX ⟨hx, ?_⟩))
        rintro (⟨hw', -⟩ | ⟨ho', -⟩)
        · exact hw hw'
        · exact absurd (le_trans ho'.1 ho.2) (by decide)
  by_cases hpe : GicDistributorMmio.inWindow gicdIspendr0 gicdIspendr31 offset ∧ w = 32
  · obtain ⟨ho, rfl⟩ := hpe
    rw [GicDistributorMmio.write_ispendr_window ho] at he
    obtain ⟨pending, hm, hs⟩ := Exec.bind_eq_ok.mp he
    obtain ⟨hi, rfl⟩ := Bank.modify_eq_ok.mp hm
    rw [Nat.mul_assoc _ 4 8] at hs
    refine Lossless.distributorScan GicDistributorMmio.isTest_getEnable (fun b hb => ?_) hE
      (fun m h32 hlt hp hd => ?_) ((hc rfl).2.2.2 ho) hs
    · have hb32 := DistributorAccess.lt_of_getLsbD hv hb
      omega
    · by_cases hw : WrittenBit gicdIspendr0 gicdIspendr31 offset 32 value m
      · exact .inr (.inr (.inr ⟨_, hw.2.2.2, (Nat.add_sub_cancel' hw.2.2.1).symm, hd.2.1⟩))
      · -- It was pending before.
        have hbit := bit_of_not_writtenBit rfl ho hw hp
        refine (h m h32 hlt hbit hd).imp_right (Or.imp_right fun hx => .inl (hX ⟨hx, ?_⟩))
        rintro (⟨⟨ho', -⟩, -⟩ | hw')
        · exact absurd (le_trans ho.1 ho'.2) (by decide)
        · exact hw hw'
  -- Nothing is triggered.
  have hsub : ∀ n, n ∈ E ∪ K → n ∈ X' := fun n hn => hX ⟨hn, by
    rintro (⟨⟨ho, hw, -⟩, -⟩ | ⟨ho, hw, -⟩)
    · exact hen ⟨ho, hw⟩
    · exact hpe ⟨ho, hw⟩⟩
  have hmono : ∀ {d : GicDistributorMmio}, d.toInjectInterrupt = gic.distributor.toInjectInterrupt →
      (∀ n, 32 ≤ n → n < 1020 → d.pending.bit n = true → d.Delivers n →
        gic.distributor.pending.bit n = true ∧ gic.distributor.Delivers n) →
      Lossless ({ gic with distributor := d }, cpu) X' := fun hq hn =>
    h.mono hn (fun _ => .inl) (fun e he => hq ▸ he) fun n _ => hsub n
  -- What can be delivered only now is held, queued or completed.
  have hallow : ∀ {d : GicDistributorMmio}, d.toInjectInterrupt = gic.distributor.toInjectInterrupt →
      d.pending = gic.distributor.pending → gic.distributor.AllowsNone cpu (E ∪ K) d →
      Lossless ({ gic with distributor := d }, cpu) X' := by
    intro d hq hpend hd n h32 hlt hp hdel
    rw [hpend] at hp
    have hqueue : d.Queues n ↔ gic.distributor.Queues n := by
      rw [GicDistributorMmio.Queues, GicDistributorMmio.Queues, hq]
    obtain hdel' | hheld | hqueued | hx := hd n h32 hlt hp hdel
    · exact (h n h32 hlt hp hdel').imp_right (Or.imp hqueue.mpr (hsub n))
    · exact .inl hheld
    · exact .inr (.inl (hqueue.mpr hqueued))
    · exact .inr (.inr (hsub n hx))
  cases GicDistributorMmio.write_cases he with
  | ctlr ho hw => exact hallow rfl rfl ((hc hw).1 ho)
  | groupModifier i hi hw ho ho' =>
    subst ho'
    exact hallow rfl rfl ((hc hw).2.1 ho)
  | isenabler i hi hw ho => exact absurd ⟨ho, hw⟩ hen
  | ispendr i hi hw ho => exact absurd ⟨ho, hw⟩ hpe
  | icenabler i hi =>
    exact hmono rfl fun n _ _ hp hd => ⟨hp, hd.1, Bank.bit_update_and_not _ _ n _ hd.2.1, hd.2.2⟩
  | icpendr i hi => exact hmono rfl fun n _ _ hp hd => ⟨Bank.bit_update_and_not _ _ n _ hp, hd⟩
  | settings | isactiver | icactiver => exact hmono rfl fun _ _ _ hp hd => ⟨hp, hd⟩

theorem Lossless.redistributorScan {test : GicRedistributorMmio → ℕ → Exec Bool}
    {r r' : GicRedistributorMmio} {value : BitVec 64}
    (h : Lossless ({ gic with redistributor := r }, cpu) X)
    (hs : r.scan test cpu value = .ok (r', cpu')) :
    Lossless ({ gic with redistributor := r' }, cpu') X := by
  exact GicRedistributorMmio.scan_triggers
    (I := fun s => Lossless ({ gic with redistributor := s.1 }, s.2) X)
    (fun h htrig => Lossless.redistributorTrigger h htrig) h hs

theorem Lossless.redistributorWrite (h : Lossless (gic, cpu) X) {offset w : ℕ} {value : BitVec 64}
    {r : GicRedistributorMmio} (he : gic.redistributor.write cpu offset w value = .ok (r, cpu')) :
    Lossless ({ gic with redistributor := r }, cpu') X := by
  have h₀ : ∀ r, Lossless ({ gic with redistributor := r }, cpu) X := fun _ => h
  cases GicRedistributorMmio.write_cases he with
  | settings | icpendr | isactiver | icactiver => exact h₀ _
  | isenabler ho hw hs | ispendr ho hw hs => exact (h₀ _).redistributorScan hs

/-! ## Handlers and the guest's steps -/

/-- Every entry of a queue that fits is in a list register then, or its interrupt is in `E`. -/
theorem holds_injectAll {v e : BitVec 64} (hin : isInactive e = false) :
    ∀ (queue : List (BitVec 64)) {lr : ListRegisters}, FitsAll v E lr queue → e ∈ queue →
      Holds v (injectAll v lr queue) (vIntId e).toNat ∨ (vIntId e).toNat ∈ E
  | x :: queue, lr, hf, he => by
    obtain rfl | he := List.mem_cons.mp he
    · exact hf.1.imp_left fun hslot => (holds_addVirtualInterrupt hin hslot).injectAll queue
    · exact holds_injectAll hin queue hf.2 he

theorem Lossless.injectInterruptHandler (h : Lossless (gic, cpu) X) (hE : E ⊆ X)
    (hc : GicEvent.injectInterruptHandler.Delivered (gic, cpu) E K) :
    Lossless (MiniVisor.injectInterruptHandler gic cpu) X := by
  intro n h32 hlt hp hd
  obtain hheld | ⟨e, he, hin, rfl⟩ | hx := h n h32 hlt hp hd
  · exact .inl ((hheld.injectAll _).injectAll _)
  · obtain hheld | hx := holds_injectAll hin _ hc he
    · exact .inl (hheld.injectAll _)
    · exact .inr (.inr (hE hx))
  · exact .inr (.inr hx)

theorem Lossless.maintenanceInterruptHandler (h : Lossless (gic, cpu) X) {eoiBits : BitVec 64}
    (he : IsEisr cpu.ichVtrEl2 cpu.lr eoiBits)
    (hx : MiniVisor.maintenanceInterruptHandler gic cpu eoiBits = .ok (gic', cpu')) :
    Lossless (gic', cpu') X := by
  obtain ⟨hcpu, hm⟩ := maintenanceInterruptHandler_maintained he hx
  obtain ⟨pending, active, hd⟩ := hm.distributor
  dsimp only at hd
  refine h.mono (fun n h32 _ hp hdel => ?_) (fun n hheld => .inl ?_) (fun e he => by rwa [hd])
    fun _ _ => id
  · have hbit := ((hm.pendingBit n).mp ((Gic.pendingBit_spi h32).trans hp)).1
    rw [Gic.pendingBit_spi h32] at hbit
    rw [hd] at hdel
    exact ⟨hbit, hdel⟩
  · rw [hcpu]
    refine hheld.mono fun i hin _ => ?_
    -- A register in use reports no completion.
    have hkept := hm.kept i fun hc => by
      rw [eoiReported, hin] at hc
      simp at hc
    dsimp only at hkept ⊢
    rw [hkept]
    exact ⟨hin, rfl⟩

theorem Lossless.acknowledge (h : Lossless (gic, cpu) X) (i : ℕ) :
    Lossless (gic, { cpu with lr := Function.update cpu.lr i (Vgic.acknowledge (cpu.lr i)) }) X :=
  h.mono (fun _ _ _ hp hd => ⟨hp, hd⟩)
    (fun _ hheld => .inl (hheld.update fun hin _ =>
      ⟨(isInactive_acknowledge _).trans hin, vIntId_acknowledge _⟩))
    (fun _ => id) fun _ _ => id

/-- An interrupt that the guest completes is not lost. -/
theorem Lossless.endOfInterrupt (h : Lossless (gic, cpu) X) (i : ℕ)
    (hX : X ∪ (GicEvent.endOfInterrupt i).completes cpu ⊆ X') :
    Lossless (gic, { cpu with lr := Function.update cpu.lr i (Vgic.endOfInterrupt (cpu.lr i)) }) X' := by
  refine h.mono (fun _ _ _ hp hd => ⟨hp, hd⟩) (fun n hheld => ?_) (fun _ => id)
    fun n _ hn => hX (.inl hn)
  by_cases hdone : n ∈ (GicEvent.endOfInterrupt i).completes cpu
  · exact .inr (hX (.inr hdone))
  · refine .inl (hheld.update fun hin hid => ?_)
    -- It is pending and not active, and the step does nothing.
    have hactive : cpu.lr i &&& ichLrnEl2StatusActive = 0#64 :=
      not_not.mp fun hact => hdone ⟨hact, hid.symm⟩
    rw [endOfInterrupt_of_not_active hactive]
    exact ⟨hin, rfl⟩

/-- An event that meets the condition loses nothing. -/
theorem Lossless.step {e : GicEvent} (h : Lossless (gic, cpu) (E ∪ K)) (hl : e.Local) (hp : e.Possible cpu)
    (hc : e.Delivered (gic, cpu) E K) (he : e.exec (gic, cpu) = .ok (gic', cpu'))
    (hX : E ∪ (K \ e.pends gic ∪ e.completes cpu) ⊆ X') : Lossless (gic', cpu') X' := by
  obtain ⟨hE, hX⟩ := Set.union_subset_iff.mp hX
  have hkeep : (E ∪ K) \ e.pends gic ⊆ X' := by
    rintro n ⟨hn | hn, hpend⟩
    · exact hE hn
    · exact hX (.inl ⟨hn, hpend⟩)
  cases e with
  | distributorTriggerOn | redistributorTriggerOn => cases hl
  | distributorTrigger n p =>
    obtain ⟨⟨d, cpu₁⟩, hx, hs⟩ := Exec.bind_eq_ok.mp he
    cases hs
    have hsub : E ∪ K ⊆ insert n X' := fun m hm => or_iff_not_imp_left.mpr fun hne => hkeep ⟨hm, hne⟩
    exact (h.subset hsub).distributorTrigger hE hc hx
  | redistributorTrigger n p =>
    obtain ⟨⟨r, cpu₁⟩, hx, hs⟩ := Exec.bind_eq_ok.mp he
    cases hs
    exact (h.redistributorTrigger hx).subset fun n hn => hkeep ⟨hn, id⟩
  | distributorWrite offset w value =>
    obtain ⟨⟨d, cpu₁⟩, hx, hs⟩ := Exec.bind_eq_ok.mp he
    cases hs
    exact h.distributorWrite hp hE hkeep hc hx
  | redistributorWrite offset w value =>
    obtain ⟨⟨r, cpu₁⟩, hx, hs⟩ := Exec.bind_eq_ok.mp he
    cases hs
    exact (h.redistributorWrite hx).subset fun n hn => hkeep ⟨hn, id⟩
  | injectInterruptHandler =>
    cases he
    exact (h.injectInterruptHandler Set.subset_union_left hc).subset fun n hn => hkeep ⟨hn, id⟩
  | maintenanceInterruptHandler eoiBits =>
    exact (h.maintenanceInterruptHandler hp he).subset fun n hn => hkeep ⟨hn, id⟩
  | acknowledge i =>
    cases he
    exact (h.acknowledge i).subset fun n hn => hkeep ⟨hn, id⟩
  | endOfInterrupt i =>
    cases he
    refine h.endOfInterrupt i ?_
    rintro n ((hn | hn) | hdone)
    · exact hE hn
    · exact hX (.inl ⟨hn, id⟩)
    · exact hX (.inr hdone)

end Step

/-! ## Runs -/

variable {ι : Type} [DecidableEq ι]

/-- No SPI is lost : each one below 1020 that is pending, enabled, of group modifier 0 and not held back by
`GICD_CTLR` is in a list register that is not inactive, or in the queue, or in `K`. -/
def GicSystem.Lossless (s : GicSystem ι) (K : Set ℕ) : Prop :=
  ∀ n, 32 ≤ n → n < 1020 → s.gic.distributor.pending.bit n = true → s.gic.distributor.Delivers n →
    (∃ c, Holds (s.cpus c).ichVtrEl2 (s.cpus c).lr n) ∨ s.gic.distributor.Queues n ∨ n ∈ K

omit [DecidableEq ι] in
/-- The statement, seen from one CPU. -/
theorem GicSystem.Lossless.on {s : GicSystem ι} {K : Set ℕ} (h : s.Lossless K) (c : ι) :
    MiniVisor.Lossless (s.gic, s.cpus c) (s.elsewhere c ∪ K) := by
  intro n h32 hlt hp hd
  obtain ⟨c', hheld⟩ | hq | hK := h n h32 hlt hp hd
  · by_cases hc : c' = c
    · exact .inl (hc ▸ hheld)
    · exact .inr (.inr (.inl ⟨c', hc, hheld⟩))
  · exact .inr (.inl hq)
  · exact .inr (.inr (.inr hK))

/-- Only one CPU has changed. -/
theorem GicSystem.lossless_update {s : GicSystem ι} {K : Set ℕ} {c : ι} {gic : Gic} {cpu : Cpu}
    (h : MiniVisor.Lossless (gic, cpu) (s.elsewhere c ∪ K)) :
    GicSystem.Lossless ⟨gic, Function.update s.cpus c cpu⟩ K := by
  intro n h32 hlt hp hd
  obtain hheld | hq | ⟨c', hne, hheld⟩ | hK := h n h32 hlt hp hd
  · exact .inl ⟨c, by simpa using hheld⟩
  · exact .inr (.inl hq)
  · exact .inl ⟨c', by simpa [hne] using hheld⟩
  · exact .inr (.inr hK)

/-- In every run whose events meet the condition no SPI is lost : what is pending and can be
delivered is in a list register or in the queue, or the guest has completed it and it waits for the
maintenance handler. -/
theorem systemRun_lossless {s : GicSystem ι} {K : Set ℕ} (h : SystemRun GicEvent.Delivered s K) :
    s.Lossless K := by
  induction h with
  | start gic cpus hn =>
    intro n _ _ hp
    exact absurd (hp.symm.trans (hn n)) (by decide)
  | @step s K gic cpu c e hr hl hp hc he ih =>
    exact GicSystem.lossless_update ((ih.on c).step hl hp hc he subset_rfl)

/-- The condition of a write to `GICD_CTLR`. -/
theorem GicEvent.delivered_ctlr {gic : Gic} {cpu : Cpu} {E K : Set ℕ} {value : BitVec 64}
    (h : gic.distributor.AllowsNone cpu (E ∪ K) { gic.distributor with ctlr := value.setWidth 32 }) :
    Delivered (.distributorWrite gicdCtlr 32 value) (gic, cpu) E K :=
  fun _ => ⟨fun _ => h, fun hw => absurd hw (by decide), fun hw => absurd hw (by decide),
    fun hw => absurd hw (by decide)⟩

/-- SPI 33 is triggered, and is in the first list register while the distributor is turned off and
on again. -/
theorem systemRun_lossless_spi :
    ∃ s : GicSystem Unit, ∃ K, SystemRun GicEvent.Delivered s K ∧ s.gic.distributor.pending.bit 33 = true ∧
      s.gic.distributor.Delivers 33 ∧ 33 ∉ K ∧ s.Lossless K := by
  have h₀ := SystemRun.start (C := GicEvent.Delivered) enabledGic (fun _ : Unit => twoListRegisters)
    (fun _ => by simp [enabledGic, GicDistributorMmio.new, Bank.bit, Bank.fill])
  have h₁ := SystemRun.step () (.distributorTrigger 33 none) h₀ trivial trivial
      (fun _ _ => .inl (by decide)) rfl
  have hfound := systemRun_lossless h₁
  have h₂ := SystemRun.step () (.distributorWrite gicdCtlr 32 0) h₁ trivial
      (show (0#64).toNat < 2 ^ 32 by decide)
    (GicEvent.delivered_ctlr fun n _ _ _ hd => absurd hd.1 (by decide)) rfl
  have h₃ := SystemRun.step () (.distributorWrite gicdCtlr 32 0x12) h₂ trivial
    (show (0x12#64).toNat < 2 ^ 32 by decide) (GicEvent.delivered_ctlr fun n h32 hlt hp hd => .inr ?_) rfl
  · exact ⟨_, _, h₃, by decide, by decide, by simp [GicEvent.pends, GicEvent.completes],
      systemRun_lossless h₃⟩
  · -- what was found in front of the first write is still there
    obtain ⟨⟨⟩, hheld⟩ | hq | hK := hfound n h32 hlt hp hd
    · exact .inl hheld
    · exact .inr (.inl hq)
    · simp [GicEvent.pends, GicEvent.completes] at hK

/-- An SPI that is pending and can be delivered, but in no list register and no queue. -/
theorem not_lossless {s : GicSystem Unit} {n : ℕ} (h32 : 32 ≤ n) (hlt : n < 1020)
    (hp : s.gic.distributor.pending.bit n = true) (hd : s.gic.distributor.Delivers n)
    (hlr : ∀ i < supportedLrn (s.cpus ()).ichVtrEl2, isInactive ((s.cpus ()).lr i) = true ∨
      (vIntId ((s.cpus ()).lr i)).toNat ≠ n)
    (hq : s.gic.distributor.toInjectInterrupt = []) : ¬s.Lossless ∅ := by
  intro h
  obtain ⟨⟨⟩, i, hi, hin, hid⟩ | ⟨e, he, -⟩ | hK := h n h32 hlt hp hd
  · obtain hfree | hne := hlr i hi
    · exact absurd (hfree.symm.trans hin) (by decide)
    · exact hne hid
  · rw [hq] at he
    cases he
  · exact hK

/-- SPI 33 is completed, and still pending before the maintenance handler runs. With one list
register SPI 40 is dropped while SPI 33 is in it. And SPI 33 is triggered while `ARE_S` is off, and
not looked at when it is turned on. -/
theorem systemRun_loses :
    (∃ s : GicSystem Unit, ∃ K, SystemRun GicEvent.Delivered s K ∧ ¬s.Lossless ∅) ∧
    (∃ s : GicSystem Unit, ∃ K, SystemRun (fun _ _ _ _ => True) s K ∧ ¬s.Lossless ∅) ∧
    ∃ s : GicSystem Unit, ∃ K, SystemRun (fun _ _ _ _ => True) s K ∧ ¬s.Lossless ∅ := by
  have hnone : ∀ n, enabledGic.distributor.pending.bit n = false := fun _ => by
    simp [enabledGic, GicDistributorMmio.new, Bank.bit, Bank.fill]
  have h1 : 0 < numberOfLrn 1 := by decide
  refine ⟨?_, ?_, ?_⟩
  · have h₀ := SystemRun.start (C := GicEvent.Delivered) enabledGic
        (fun _ : Unit => twoListRegisters) hnone
    have h₁ := SystemRun.step () (.distributorTrigger 33 none) h₀ trivial trivial
        (fun _ _ => .inl (by decide)) rfl
    have h₂ := SystemRun.step () (.acknowledge 0) h₁ trivial h1 trivial rfl
    have h₃ := SystemRun.step () (.endOfInterrupt 0) h₂ trivial h1 trivial rfl
    exact ⟨_, _, h₃, not_lossless (n := 33) (by decide) (by decide) rfl (by decide) (by decide) rfl⟩
  · have h₀ := SystemRun.start (C := fun _ _ _ _ => True) enabledGic
      (fun _ : Unit => { twoListRegisters with ichVtrEl2 := 0 }) hnone
    have h₁ := SystemRun.step () (.distributorTrigger 33 none) h₀ trivial trivial trivial rfl
    have h₂ := SystemRun.step () (.distributorTrigger 40 none) h₁ trivial trivial trivial rfl
    exact ⟨_, _, h₂, not_lossless (n := 40) (by decide) (by decide) rfl (by decide) (by decide) rfl⟩
  · have h₀ := SystemRun.start (C := fun _ _ _ _ => True)
      { enabledGic with distributor.ctlr := gicdCtlrEnableGrp1ns } (fun _ : Unit => twoListRegisters) hnone
    have h₁ := SystemRun.step () (.distributorTrigger 33 none) h₀ trivial trivial trivial rfl
    have h₂ := SystemRun.step () (.distributorWrite gicdCtlr 32 0x12) h₁ trivial
      (show (0x12#64).toNat < 2 ^ 32 by decide) trivial rfl
    exact ⟨_, _, h₂, not_lossless (n := 33) (by decide) (by decide) rfl (by decide) (by decide) rfl⟩

end MiniVisor
