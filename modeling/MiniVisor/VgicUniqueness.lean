import MiniVisor.GicMmio

/-!
# One list register for each interrupt

The architecture leaves two list registers with the same virtual INTID unpredictable. A run
of the list registers of one CPU (`LrRun`) interleaves `add_virtual_interrupt`,
`maintenance_interrupt_handler` and the guest's acknowledge and completion, in any order.

`addVirtualInterrupt` stops at the first inactive register, so it duplicates an INTID that a
later register still holds. `NoHoleBefore` is the state in which it does not, and
`lrRun_unique` says that it is exactly the condition : registers stay distinct in every run
whose additions meet it, and in each such state an addition keeps them distinct if and only
if it meets it.
-/

namespace MiniVisor

open Machine Vgic

/-- No two registers in use hold the same INTID. -/
def UniqueIntIds (v : BitVec 64) (lr : ListRegisters) : Prop :=
  ∀ i j, i < numberOfLrn v → j < numberOfLrn v → i ≠ j → isInactive (lr i) = false →
    isInactive (lr j) = false → vIntId (lr i) ≠ vIntId (lr j)

/-- No inactive register lies before one in use that holds the INTID of `entry`, unless
`entry` is itself inactive. -/
def NoHoleBefore (v : BitVec 64) (lr : ListRegisters) (entry : BitVec 64) : Prop :=
  ∀ i j, i < j → j < supportedLrn v → isInactive (lr i) = true → isInactive (lr j) = false →
    vIntId (lr j) = vIntId entry → isInactive entry = true

/-- What can happen to the list registers of a CPU. -/
inductive LrEvent
  | addVirtualInterrupt (entry : BitVec 64)
  | maintenanceInterruptHandler (eoiBits : BitVec 64)
  | acknowledge (i : ℕ)
  | endOfInterrupt (i : ℕ)

/-- The effect of an event. -/
def LrEvent.exec : LrEvent → Gic × Cpu → Exec (Gic × Cpu)
  | .addVirtualInterrupt entry, (gic, cpu) =>
    .ok (gic, { cpu with lr := Vgic.addVirtualInterrupt cpu.ichVtrEl2 cpu.lr entry })
  | .maintenanceInterruptHandler eoiBits, (gic, cpu) =>
    MiniVisor.maintenanceInterruptHandler gic cpu eoiBits
  | .acknowledge i, (gic, cpu) =>
    .ok (gic, { cpu with lr := Function.update cpu.lr i (Vgic.acknowledge (cpu.lr i)) })
  | .endOfInterrupt i, (gic, cpu) =>
    .ok (gic, { cpu with lr := Function.update cpu.lr i (Vgic.endOfInterrupt (cpu.lr i)) })

/-- The event can happen in the state : the handler reads what the processor reports, and
the guest acts on a register that is implemented. -/
def LrEvent.Possible (cpu : Cpu) : LrEvent → Prop
  | .addVirtualInterrupt _ => True
  | .maintenanceInterruptHandler eoiBits => IsEisr cpu.ichVtrEl2 cpu.lr eoiBits
  | .acknowledge i => i < numberOfLrn cpu.ichVtrEl2
  | .endOfInterrupt i => i < numberOfLrn cpu.ichVtrEl2

/-- The states of the runs, from inactive registers, in which every addition meets `C`. -/
inductive LrRun (C : BitVec 64 → ListRegisters → BitVec 64 → Prop) : Gic × Cpu → Prop
  | start (gic : Gic) (cpu : Cpu) (h : ∀ i, isInactive (cpu.lr i) = true) : LrRun C (gic, cpu)
  | step {s s' : Gic × Cpu} (e : LrEvent) (hr : LrRun C s) (hp : e.Possible s.2)
      (hc : ∀ entry, e = .addVirtualInterrupt entry → C s.2.ichVtrEl2 s.2.lr entry)
      (he : e.exec s = .ok s') : LrRun C s'

/-! ## What the events do to the registers -/

/-- `lr'` results from `lr` by freeing registers and changing their status. -/
def Thins (lr lr' : ListRegisters) : Prop :=
  ∀ i, (isInactive (lr i) = true → isInactive (lr' i) = true) ∧
    (isInactive (lr' i) = false → vIntId (lr' i) = vIntId (lr i))

theorem Thins.refl (lr : ListRegisters) : Thins lr lr :=
  fun _ => ⟨id, fun _ => rfl⟩

theorem Thins.trans {lr lr' lr'' : ListRegisters} (h : Thins lr lr') (h' : Thins lr' lr'') :
    Thins lr lr'' := by
  intro i
  refine ⟨fun hi => (h' i).1 ((h i).1 hi), fun hi => ?_⟩
  have hi' : isInactive (lr' i) = false := by
    by_contra hc
    rw [(h' i).1 (by simpa using hc)] at hi
    exact absurd hi (by decide)
  exact ((h' i).2 hi).trans ((h i).2 hi')

theorem Thins.update {lr : ListRegisters} {i : ℕ} {r : BitVec 64}
    (h : isInactive (lr i) = true → isInactive r = true)
    (h' : isInactive r = false → vIntId r = vIntId (lr i)) : Thins lr (Function.update lr i r) := by
  intro j
  by_cases hj : j = i
  · subst hj
    simpa using ⟨h, h'⟩
  · simp [Function.update_of_ne hj]

theorem completeInterrupt_lr {gic gic' : Gic} {lr lr' : ListRegisters} {i : ℕ}
    (h : completeInterrupt gic lr i = .ok (gic', lr')) : lr' = Function.update lr i 0#64 := by
  simp only [completeInterrupt] at h
  split_ifs at h <;>
  · obtain ⟨_, -, h⟩ := Exec.bind_eq_ok.mp h
    obtain ⟨_, -, h⟩ := Exec.bind_eq_ok.mp h
    cases h
    rfl

theorem maintenanceFrom_thins :
    ∀ (n i : ℕ) (eoiBits : BitVec 64) (s s' : Gic × ListRegisters),
      maintenanceFrom eoiBits n i s = .ok s' → Thins s.2 s'.2
  | 0, _, _, s, s', h => by
    cases h
    exact Thins.refl _
  | n + 1, i, eoiBits, s, s', h => by
    rw [maintenanceFrom] at h
    obtain ⟨⟨gic₁, lr₁⟩, h₁, h₂⟩ := Exec.bind_eq_ok.mp h
    refine Thins.trans ?_ (maintenanceFrom_thins n (i + 1) _ _ s' h₂)
    unfold maintainRegister at h₁
    split_ifs at h₁
    · rw [completeInterrupt_lr h₁]
      exact Thins.update (fun _ => isInactive_zero) (by simp)
    · cases h₁
      exact Thins.refl _

/-- Every event other than an addition only frees registers and changes their status. -/
theorem LrEvent.exec_thins {e : LrEvent} {s s' : Gic × Cpu}
    (ha : ∀ entry, e ≠ .addVirtualInterrupt entry) (h : e.exec s = .ok s') :
    Thins s.2.lr s'.2.lr := by
  obtain ⟨gic, cpu⟩ := s
  cases e with
  | addVirtualInterrupt entry => exact absurd rfl (ha entry)
  | maintenanceInterruptHandler eoiBits =>
    obtain ⟨⟨gic', lr'⟩, h₁, h₂⟩ := Exec.bind_eq_ok.mp h
    cases h₂
    exact maintenanceFrom_thins _ _ _ _ _ h₁
  | acknowledge i =>
    cases h
    exact Thins.update (fun hi => by rwa [isInactive_acknowledge])
      (fun _ => vIntId_acknowledge _)
  | endOfInterrupt i =>
    cases h
    exact Thins.update isInactive_endOfInterrupt (fun _ => vIntId_endOfInterrupt _)

theorem LrEvent.exec_ichVtrEl2 {e : LrEvent} {s s' : Gic × Cpu} (h : e.exec s = .ok s') :
    s'.2.ichVtrEl2 = s.2.ichVtrEl2 := by
  obtain ⟨gic, cpu⟩ := s
  cases e with
  | maintenanceInterruptHandler eoiBits =>
    obtain ⟨⟨gic', lr'⟩, h₁, h₂⟩ := Exec.bind_eq_ok.mp h
    cases h₂
    rfl
  | addVirtualInterrupt _ | acknowledge _ | endOfInterrupt _ =>
    cases h
    rfl

/-! ## Distinct INTIDs -/

theorem UniqueIntIds.thins {v : BitVec 64} {lr lr' : ListRegisters} (h : UniqueIntIds v lr)
    (ht : Thins lr lr') : UniqueIntIds v lr' := by
  have active : ∀ {i}, isInactive (lr' i) = false → isInactive (lr i) = false := by
    intro i hi
    by_contra hc
    rw [(ht i).1 (by simpa using hc)] at hi
    exact absurd hi (by decide)
  intro i j hi hj hij hai haj
  rw [(ht i).2 hai, (ht j).2 haj]
  exact h i j hi hj hij (active hai) (active haj)

/-- The registers past those the code uses are inactive. -/
def UnusedInactive (v : BitVec 64) (lr : ListRegisters) : Prop :=
  ∀ i, supportedLrn v ≤ i → isInactive (lr i) = true

theorem UnusedInactive.lt {v : BitVec 64} {lr : ListRegisters} (h : UnusedInactive v lr) {i : ℕ}
    (hi : isInactive (lr i) = false) : i < supportedLrn v := by
  by_contra hc
  rw [h i (by omega)] at hi
  exact absurd hi (by decide)

theorem UnusedInactive.addVirtualInterrupt {v : BitVec 64} {lr : ListRegisters}
    (h : UnusedInactive v lr) (e : BitVec 64) :
    UnusedInactive v (Vgic.addVirtualInterrupt v lr e) := by
  intro i hi
  unfold Vgic.addVirtualInterrupt
  cases hk : slotFor v lr e with
  | none => exact h i hi
  | some k =>
    have hne : i ≠ k := by
      have := (slotFor_eq_some.mp hk).1
      omega
    simp only
    split_ifs <;> rw [Function.update_of_ne hne] <;> exact h i hi

/-- An inactive register among those the code uses makes the scan stop. -/
theorem exists_slotFor {v : BitVec 64} {lr : ListRegisters} (e : BitVec 64) {i : ℕ}
    (hi : i < supportedLrn v) (hin : isInactive (lr i) = true) :
    ∃ k ≤ i, slotFor v lr e = some k := by
  cases hk : slotFor v lr e with
  | none =>
    rw [slotFor, List.find?_eq_none] at hk
    exact absurd (hk i (List.mem_range.mpr hi)) (by simp [hin])
  | some k =>
    refine ⟨k, ?_, rfl⟩
    by_contra hc
    rw [((slotFor_eq_some.mp hk).2.2 i (by omega)).1] at hin
    exact absurd hin (by decide)

/-- From distinct registers, an addition keeps them distinct exactly when no inactive
register lies before the one that holds its INTID. -/
theorem unique_addVirtualInterrupt_iff {v : BitVec 64} {lr : ListRegisters} {e : BitVec 64}
    (hout : UnusedInactive v lr) (hu : UniqueIntIds v lr) :
    UniqueIntIds v (addVirtualInterrupt v lr e) ↔ NoHoleBefore v lr e := by
  have hle := supportedLrn_le v
  constructor
  · intro h i j hij hj hi hja hid
    by_contra hact
    -- The scan stops at or before the hole `i`, at a register that is itself inactive.
    obtain ⟨k, hki, hk⟩ := exists_slotFor e (Nat.lt_trans hij hj) hi
    obtain ⟨hks, hkor, hkmin⟩ := slotFor_eq_some.mp hk
    have hkin : isInactive (lr k) = true := by
      by_contra hc
      refine hu k j (by omega) (by omega) (by omega) (by simpa using hc) hja ?_
      rw [hid]
      exact hkor.resolve_left hc
    have hadd : addVirtualInterrupt v lr e = Function.update lr k e := by
      simp [addVirtualInterrupt, hk, hkin]
    rw [hadd] at h
    refine h k j (by omega) (by omega) (by omega) (by simpa using hact) ?_ ?_
    · rwa [Function.update_of_ne (by omega)]
    · rw [Function.update_self, Function.update_of_ne (by omega), hid]
  · intro h
    unfold addVirtualInterrupt
    cases hk : slotFor v lr e with
    | none => exact hu
    | some k =>
      obtain ⟨hks, hkor, hkmin⟩ := slotFor_eq_some.mp hk
      simp only
      split_ifs with hkin
      · -- A register in use with the INTID would stop the scan earlier, or lie past the hole.
        have other : ∀ j, j ≠ k → isInactive (lr j) = false → isInactive e = false →
            vIntId (lr j) ≠ vIntId e := by
          intro j hjk hja hea hid
          rcases Nat.lt_or_gt_of_ne hjk with hlt | hgt
          · exact (hkmin j hlt).2 hid
          · rw [h k j hgt (hout.lt hja) hkin hja hid] at hea
            exact absurd hea (by decide)
        intro i j hi hj hij hai haj
        by_cases hik : i = k
        · subst hik
          rw [Function.update_self] at hai ⊢
          rw [Function.update_of_ne (Ne.symm hij)] at haj ⊢
          exact (other j (Ne.symm hij) haj hai).symm
        · rw [Function.update_of_ne hik] at hai ⊢
          by_cases hjk : j = k
          · subst hjk
            rw [Function.update_self] at haj ⊢
            exact other i hik hai haj
          · rw [Function.update_of_ne hjk] at haj ⊢
            exact hu i j hi hj hij hai haj
      · exact hu.thins (Thins.update (by simp [hkin]) (by simp))

/-! ## Runs -/

/-- The invariant of the runs : distinct registers, and none in use past those the code
knows. -/
theorem lrRun_invariant {s : Gic × Cpu} (h : LrRun NoHoleBefore s) :
    UnusedInactive s.2.ichVtrEl2 s.2.lr ∧ UniqueIntIds s.2.ichVtrEl2 s.2.lr := by
  induction h with
  | start gic cpu h =>
    refine ⟨fun i _ => h i, fun i j _ _ _ hi => ?_⟩
    simp only at hi
    rw [h i] at hi
    exact absurd hi (by decide)
  | @step s s' e _ _ hc he ih =>
    obtain ⟨hout, hu⟩ := ih
    rw [LrEvent.exec_ichVtrEl2 he]
    by_cases ha : ∃ entry, e = .addVirtualInterrupt entry
    · obtain ⟨entry, rfl⟩ := ha
      cases he
      exact ⟨hout.addVirtualInterrupt entry,
        (unique_addVirtualInterrupt_iff hout hu).mpr (hc entry rfl)⟩
    · have ht := LrEvent.exec_thins (fun entry hentry => ha ⟨entry, hentry⟩) he
      exact ⟨fun i hi => (ht i).1 (hout i hi), hu.thins ht⟩

/-- In every run in which no addition finds an inactive register before the one that holds
its INTID, the registers in use hold distinct INTIDs; and from each state of such a run an
addition keeps them distinct exactly when it meets that condition. -/
theorem lrRun_unique {s : Gic × Cpu} (h : LrRun NoHoleBefore s) :
    UniqueIntIds s.2.ichVtrEl2 s.2.lr ∧ ∀ entry,
      UniqueIntIds s.2.ichVtrEl2 (addVirtualInterrupt s.2.ichVtrEl2 s.2.lr entry) ↔
        NoHoleBefore s.2.ichVtrEl2 s.2.lr entry := by
  obtain ⟨hout, hu⟩ := lrRun_invariant h
  exact ⟨hu, fun entry => unique_addVirtualInterrupt_iff hout hu⟩

/-- A CPU with two list registers, both inactive. -/
def twoListRegisters : Cpu where
  mpidrEl1 := 0
  ichVtrEl2 := 1
  lr := fun _ => 0#64
  iccSgi1rEl1 := []

/-- The controller of a VM before the guest has touched it. -/
def Gic.new : Gic :=
  ⟨.new, .new 0⟩

/-- A pending entry for SPI 40. -/
def entry40 : BitVec 64 :=
  createListRegisterEntry 40 1 0 none

/-- A pending entry for SPI 33. -/
def entry33 : BitVec 64 :=
  createListRegisterEntry 33 1 0 none

/-- SPI 40 and SPI 33 are added and the guest completes SPI 40, which leaves a hole in front of SPI
33. SPI 40 is added again and takes the hole, and then SPI 33, which stays in its register. -/
theorem lrRun_unique_hole : ∃ s, LrRun NoHoleBefore s ∧
    (isInactive (s.2.lr 0), isInactive (s.2.lr 1)) = (false, false) ∧
    UniqueIntIds s.2.ichVtrEl2 s.2.lr := by
  have add {s s' : Gic × Cpu} (entry : BitVec 64) (hr : LrRun NoHoleBefore s) (hv : s.2.ichVtrEl2 = 1)
      (hc : isInactive (s.2.lr 0) = true → vIntId (s.2.lr 1) = vIntId entry → isInactive (s.2.lr 1) = true)
      (he : (LrEvent.addVirtualInterrupt entry).exec s = .ok s') : LrRun NoHoleBefore s' := by
    refine .step (.addVirtualInterrupt entry) hr trivial ?_ he
    rintro _ ⟨⟩ i j hij hj hi hja hid
    have hj : j < 2 := by rwa [hv] at hj
    obtain rfl : i = 0 := by omega
    obtain rfl : j = 1 := by omega
    rw [hc hi hid] at hja
    cases hja
  have guest {s s' : Gic × Cpu} (e : LrEvent) (hr : LrRun NoHoleBefore s) (hp : e.Possible s.2)
      (ha : ∀ entry, e ≠ .addVirtualInterrupt entry) (he : e.exec s = .ok s') : LrRun NoHoleBefore s' :=
    .step e hr hp (fun entry h => absurd h (ha entry)) he
  have h₀ := LrRun.start (C := NoHoleBefore) Gic.new twoListRegisters fun _ => isInactive_zero
  have h₁ := add entry40 h₀ rfl (by decide) rfl
  have h₂ := add entry33 h₁ rfl (by decide) rfl
  have h₃ := guest (.acknowledge 0) h₂ (show 0 < numberOfLrn 1 by decide) nofun rfl
  have h₄ := guest (.endOfInterrupt 0) h₃ (show 0 < numberOfLrn 1 by decide) nofun rfl
  have h₅ := add entry40 h₄ rfl (by decide) rfl
  have h₆ := add entry33 h₅ rfl (by decide) rfl
  exact ⟨_, h₆, by decide, (lrRun_unique h₆).1⟩

/-- SPI 40 and SPI 33 are added, the guest completes SPI 40, and SPI 33 is added again : both
registers hold SPI 33, pending. -/
theorem lrRun_duplicate :
    ∃ s, LrRun (fun _ _ _ => True) s ∧ ¬UniqueIntIds s.2.ichVtrEl2 s.2.lr := by
  have step {s s' : Gic × Cpu} (e : LrEvent) (hr : LrRun (fun _ _ _ => True) s)
      (hp : e.Possible s.2) (he : e.exec s = .ok s') : LrRun (fun _ _ _ => True) s' :=
    .step e hr hp (fun _ _ => trivial) he
  have h₀ := LrRun.start (C := fun _ _ _ => True) Gic.new twoListRegisters fun _ => isInactive_zero
  have h₁ := step (.addVirtualInterrupt entry40) h₀ trivial rfl
  have h₂ := step (.addVirtualInterrupt entry33) h₁ trivial rfl
  have h₃ := step (.acknowledge 0) h₂ (show 0 < numberOfLrn 1 by decide) rfl
  have h₄ := step (.endOfInterrupt 0) h₃ (show 0 < numberOfLrn 1 by decide) rfl
  have h₅ := step (.addVirtualInterrupt entry33) h₄ trivial rfl
  refine ⟨_, h₅, fun hu => ?_⟩
  exact absurd (hu 0 1 (by decide) (by decide) (by decide) (by decide) (by decide)) (by decide)

end MiniVisor
