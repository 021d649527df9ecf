import MiniVisor.VirtioBlkQueue
import MiniVisor.Fat32Termination
import Mathlib.Order.SuccPred.Relation

/-!
# How long a notification takes

The loop over the available ring counts in 16 bits, so it ends. The loop over the descriptors of a
request follows the links that the guest has written. Every descriptor adds its length to a counter of
32 bits, so a cycle with a length in it ends at an overflow check. A cycle of descriptors without a
length adds nothing, and then the loop does not end.

`Caught` is a place of the loop from which it comes back to the same descriptor without having read a
length. `operation_halts_iff` says that a notification ends if no such place is reached. The converse
needs that the transfers for empty descriptors leave the descriptor table as it is : `Fat32::read` with
the length 0 still reads a sector, which may change a link.
-/

namespace MiniVisor

open Machine

namespace VirtioBlkMmio

variable {σ : Type} {v : Fat32} {pages : Pages σ} {vm : VM} {self : VirtioBlkMmio} {isWrite : Bool}
  {s s' : ChainState σ}

/-- The descriptor that the loop reads next. -/
def nextDescriptor (self : VirtioBlkMmio) (s : ChainState σ) : VirtQueueDesc :=
  VirtQueueDesc.ofMemory s.env.memory (self.descriptor + sizeOfVirtQueueDesc * s.descriptor.next)

/-- The descriptor is empty, and another one follows. -/
def Empty (d : VirtQueueDesc) : Prop :=
  d.flags &&& virtQueueDescFlagsNext ≠ 0 ∧ d.length = 0

section

variable (v pages vm isWrite self)

/-- An iteration that reads an empty descriptor. -/
def EmptyStep (s s' : ChainState σ) : Prop :=
  self.chainStep v pages vm isWrite s = .ok (.next s') ∧ s'.descriptor.length = 0

/-- The loop comes back to a descriptor, and all between are empty. -/
def Caught (s : ChainState σ) : Prop :=
  ∃ s', Relation.TransGen (EmptyStep v pages vm self isWrite) s s' ∧
    s'.descriptor.next = s.descriptor.next

/-- The state of the loop over the descriptors at its start. -/
def chainStart (request : BlkRequest) (env : BlkEnv σ) : ChainState σ :=
  ⟨request.descriptor, 0, virtioBlkSOk, request.offset, env⟩

/-- The loop over the available ring comes to a request. -/
def AtRequest (start : VirtioBlkMmio × BlkEnv σ) (request : BlkRequest) (env : BlkEnv σ) : Prop :=
  ∃ s id env₁, Reaches (operationStep v pages vm) start s ∧
    s.1.getNextAvailId s.2 = .ok (some id, self, env₁) ∧
    self.parseRequest vm id env₁ = .ok (some request, env)

/-- An empty descriptor that is reached is passed, and leaves the descriptor table as it is. -/
def Inert (start : ChainState σ) : Prop :=
  ∀ s, Reaches (self.chainStep v pages vm isWrite) start s → Empty (self.nextDescriptor s) →
    ∃ s', self.chainStep v pages vm isWrite s = .ok (.next s') ∧ ∀ id < 2 ^ 16,
      VirtQueueDesc.ofMemory s'.env.memory (self.descriptor + sizeOfVirtQueueDesc * id) =
        VirtQueueDesc.ofMemory s.env.memory (self.descriptor + sizeOfVirtQueueDesc * id)

end

/-! ## The loop over the descriptors -/

theorem VirtQueueDesc.next_lt (m : Memory) (a : ℕ) : (VirtQueueDesc.ofMemory m a).next < 2 ^ 16 :=
  m.value_lt 2 (a + 14)

theorem getDescriptor_eq_ok {id : ℕ} {env env' : BlkEnv σ} {r : Option VirtQueueDesc}
    (h : self.getDescriptor id env = .ok (r, env')) :
    self.descriptor = 0 ∧ r = none ∧ env' = env ∨ self.descriptor ≠ 0 ∧
      r = some (VirtQueueDesc.ofMemory env.memory (self.descriptor + sizeOfVirtQueueDesc * id)) ∧
      env' = env.touch (self.descriptor + sizeOfVirtQueueDesc * id) sizeOfVirtQueueDesc := by
  unfold getDescriptor at h
  split_ifs at h with h0
  · simp only [Exec.bind_eq_ok, checkedMul_eq_ok, checkedAdd_eq_ok] at h
    obtain ⟨index, ⟨-, rfl⟩, address, ⟨-, rfl⟩, h⟩ := h
    cases h
    exact .inr ⟨h0, rfl, rfl⟩
  · cases h
    exact .inl ⟨not_not.mp h0, rfl, rfl⟩

/-- The host behind the descriptor that the loop reads next. -/
def descriptorRead (self : VirtioBlkMmio) (s : ChainState σ) : BlkEnv σ :=
  s.env.touch (self.descriptor + sizeOfVirtQueueDesc * s.descriptor.next) sizeOfVirtQueueDesc

/-- An iteration that goes on has read a descriptor with a successor, whose buffer is outside of the RAM or
has been transferred. -/
theorem chainStep_eq_next (h : self.chainStep v pages vm isWrite s = .ok (.next s')) :
    let d := self.nextDescriptor s
    self.descriptor ≠ 0 ∧ d.flags &&& virtQueueDescFlagsNext ≠ 0 ∧ s.totalSize + d.length < 2 ^ 32 ∧
      (¬vm.Contains d.address ∧ s' = { s with
          descriptor := d
          totalSize := s.totalSize + d.length
          status := virtioBlkSIoerr
          env := self.descriptorRead s } ∨
        vm.Contains d.address ∧ ∃ succeeded env,
          self.transferFile v pages isWrite (vm.physical d.address) s.offset d.length
            (self.descriptorRead s) = .ok (succeeded, env) ∧
          s' = ⟨d, s.totalSize + d.length, if succeeded then s.status else virtioBlkSIoerr,
            s.offset + d.length, env⟩) := by
  intro d
  simp only [chainStep, Exec.bind_eq_ok] at h
  obtain ⟨⟨r, env⟩, hd, h⟩ := h
  obtain ⟨-, rfl, rfl⟩ | ⟨hnull, rfl, rfl⟩ := getDescriptor_eq_ok hd
  · cases h
  dsimp only at h
  split_ifs at h with hflags
  · cases h
  simp only [Exec.bind_eq_ok, checkedAdd_eq_ok] at h
  obtain ⟨totalSize, ⟨hlt, rfl⟩, address, haddress, h⟩ := h
  refine ⟨hnull, hflags, hlt, ?_⟩
  obtain ⟨rfl, hout⟩ | ⟨rfl, hin⟩ := VM.contains_of_eq_ok haddress
  · exact .inl ⟨hout, (Iter.next.inj (Except.ok.inj h)).symm⟩
  · simp only [Exec.bind_eq_ok, checkedAdd_eq_ok] at h
    obtain ⟨⟨succeeded, env⟩, htransfer, offset, ⟨-, rfl⟩, h⟩ := h
    exact .inr ⟨hin, succeeded, env, htransfer, (Iter.next.inj (Except.ok.inj h)).symm⟩

/-- The loop over the descriptors ends without a table, or at a descriptor without a successor,
which it only reads. -/
theorem chainStep_eq_done {r : Bool × ChainState σ}
    (h : self.chainStep v pages vm isWrite s = .ok (.done r)) :
    self.descriptor = 0 ∧ r = (false, s) ∨
      self.descriptor ≠ 0 ∧ (self.nextDescriptor s).flags &&& virtQueueDescFlagsNext = 0 ∧
        r = (true, { s with descriptor := self.nextDescriptor s, env := self.descriptorRead s }) := by
  simp only [chainStep, Exec.bind_eq_ok] at h
  obtain ⟨⟨d, env⟩, hd, h⟩ := h
  obtain ⟨hnull, rfl, rfl⟩ | ⟨hnull, rfl, rfl⟩ := getDescriptor_eq_ok hd
  · exact .inl ⟨hnull, (Iter.done.inj (Except.ok.inj h)).symm⟩
  dsimp only at h
  split_ifs at h with hflags
  · exact .inr ⟨hnull, hflags, (Iter.done.inj (Except.ok.inj h)).symm⟩
  · simp only [Exec.bind_eq_ok] at h
    obtain ⟨totalSize, -, address, -, h⟩ := h
    cases address with
    | none => cases h
    | some address =>
      simp only [Exec.bind_eq_ok] at h
      obtain ⟨q, -, offset, -, h⟩ := h
      cases h

/-- What an iteration adds. -/
theorem chainStep_next (h : self.chainStep v pages vm isWrite s = .ok (.next s')) :
    s'.descriptor = self.nextDescriptor s ∧ s'.descriptor.flags &&& virtQueueDescFlagsNext ≠ 0 ∧
      s'.totalSize = s.totalSize + s'.descriptor.length ∧ s'.totalSize < 2 ^ 32 := by
  obtain ⟨-, hflags, hlt, ⟨-, rfl⟩ | ⟨-, succeeded, env, -, rfl⟩⟩ := chainStep_eq_next h
  · exact ⟨rfl, hflags, rfl, hlt⟩
  · exact ⟨rfl, hflags, rfl, hlt⟩

/-- A request that writes the file leaves the memory as it is. -/
theorem chainStep_bytes (hg : v.Geometry) (h : self.chainStep v pages vm true s = .ok (.next s')) :
    s'.env.memory.bytes = s.env.memory.bytes := by
  obtain ⟨-, -, -, ⟨-, rfl⟩ | ⟨-, succeeded, env, htransfer, rfl⟩⟩ := chainStep_eq_next h
  · rfl
  · rw [transferFile, if_pos rfl, Exec.bind_eq_ok] at htransfer
    obtain ⟨⟨r, host⟩, hr, hreturn⟩ := htransfer
    cases hreturn
    exact Fat32.write_bytes hg hr

theorem halts_getDescriptor (id : ℕ) (env : BlkEnv σ) : (self.getDescriptor id env).Halts :=
  Exec.halts_ite ((halts_checkedMul _ _ _).bind fun _ _ => (halts_checkedAdd _ _ _).bind fun _ _ =>
    Exec.halts_ok _) (Exec.halts_ok _)

theorem halts_getPhysicalAddress (address : ℕ) : (vm.getPhysicalAddress address).Halts :=
  (halts_checkedAdd _ _ _).bind fun _ _ => Exec.halts_ite ((halts_checkedSub _ _).bind fun _ _ =>
    (halts_checkedAdd _ _ _).bind fun _ _ => Exec.halts_ok _) (Exec.halts_ok _)

theorem halts_transferFile (address offset size : ℕ) (env : BlkEnv σ) :
    (self.transferFile v pages isWrite address offset size env).Halts := by
  exact Exec.halts_ite ((Fat32.halts_write _ _ _ _ _).bind fun _ _ => Exec.halts_ok _)
    ((Fat32.halts_read _ _ _ _ _ _).bind fun _ _ => Exec.halts_ok _)

theorem halts_chainStep (s : ChainState σ) : (self.chainStep v pages vm isWrite s).Halts := by
  refine (halts_getDescriptor _ _).bind fun q _ => ?_
  obtain ⟨d, env⟩ := q
  cases d with
  | none => exact Exec.halts_ok _
  | some d =>
    refine Exec.halts_ite (Exec.halts_ok _) ?_
    refine (halts_checkedAdd _ _ _).bind fun totalSize _ => ?_
    refine (halts_getPhysicalAddress _).bind fun address _ => ?_
    cases address with
    | none => exact Exec.halts_ok _
    | some address =>
      refine (halts_transferFile _ _ _ _).bind fun q _ => ?_
      exact (halts_checkedAdd _ _ _).bind fun offset _ => Exec.halts_ok _

/-- The loop ends if it is nowhere caught : with 2 ^ 48 iterations it would come back to a descriptor
with the same count. -/
theorem halts_chain {start : ChainState σ} (hfree : ∀ s,
    Reaches (self.chainStep v pages vm isWrite) start s → ¬Caught v pages vm self isWrite s) :
    (loop (self.chainStep v pages vm isWrite) Fat32.maxIterations start).Halts := by
  intro t ht
  obtain ⟨f, rfl, hf⟩ | ⟨s, hs⟩ := loop_iterations _ _ ht
  · exfalso
    have hstep : ∀ k < 2 ^ 64 - 1, self.chainStep v pages vm isWrite (f (k + 1)) =
        .ok (.next (f (k + 1 + 1))) := fun k hk => hf (k + 1) (by rw [Fat32.maxIterations]; omega)
    have hread : ∀ k ≤ 2 ^ 64 - 1, (f (k + 1)).totalSize < 2 ^ 32 ∧
        (f (k + 1)).descriptor.next < 2 ^ 16 := by
      intro k hk
      obtain ⟨hdesc, -, -, hlt⟩ := chainStep_next (hf k (by rw [Fat32.maxIterations]; omega))
      exact ⟨hlt, hdesc ▸ VirtQueueDesc.next_lt _ _⟩
    obtain ⟨i, j, hij, hj, hcount, hkey⟩ := exists_repeat (n := 2 ^ 64 - 1)
      (fun k hk => (hread k hk).1) (fun k hk => (hread k hk).2) (by decide)
    have hsum : ∀ k < 2 ^ 64 - 1, (f (k + 1 + 1)).totalSize =
        (f (k + 1)).totalSize + (f (k + 1 + 1)).descriptor.length := fun k hk =>
      (chainStep_next (hstep k hk)).2.2.1
    have hmono : ∀ a b, a ≤ b → b ≤ j → (f (a + 1)).totalSize ≤ (f (b + 1)).totalSize := by
      intro a b hab
      induction b, hab using Nat.le_induction with
      | base => exact fun _ => le_rfl
      | succ b hab ih =>
        intro hb
        have := hsum b (by omega)
        exact (ih (by omega)).trans (by omega)
    have hempty : ∀ k ∈ Set.Ico i j, EmptyStep v pages vm self isWrite (f (k + 1)) (f (k + 1 + 1)) := by
      intro k hk
      refine ⟨hstep k (by have := hk.2; omega), ?_⟩
      have hlo := hmono i k hk.1 hk.2.le
      have hhi := hmono (k + 1) j hk.2 le_rfl
      have := hsum k (by have := hk.2; omega)
      omega
    have hpath : Relation.TransGen (EmptyStep v pages vm self isWrite) (f (i + 1)) (f (j + 1)) :=
      (transGen_of_succ_of_lt (fun a b => EmptyStep v pages vm self isWrite (f (a + 1)) (f (b + 1)))
        hempty hij).lift (fun k => f (k + 1)) fun _ _ h => h
    exact hfree (f (i + 1)) (reaches_iterations hf (i + 1) (by rw [Fat32.maxIterations]; omega))
      ⟨_, hpath, hkey.symm⟩
  · exact halts_chainStep s t hs

/-- All states of the loop have a descriptor that was read from the table. -/
theorem reaches_next_lt {start : ChainState σ} (hstart : start.descriptor.next < 2 ^ 16)
    (h : Reaches (self.chainStep v pages vm isWrite) start s) : s.descriptor.next < 2 ^ 16 := by
  induction h with
  | refl => exact hstart
  | tail _ hstep _ =>
    rw [(chainStep_next hstep).1]
    exact VirtQueueDesc.next_lt _ _

/-- Going through empty descriptors changes nothing of the table. -/
theorem Inert.table_eq {start u : ChainState σ} (hinert : Inert v pages vm self isWrite start)
    (hs : Reaches (self.chainStep v pages vm isWrite) start s)
    (h : Relation.ReflTransGen (EmptyStep v pages vm self isWrite) s u) :
    Reaches (self.chainStep v pages vm isWrite) start u ∧ ∀ id < 2 ^ 16,
      VirtQueueDesc.ofMemory u.env.memory (self.descriptor + sizeOfVirtQueueDesc * id) =
        VirtQueueDesc.ofMemory s.env.memory (self.descriptor + sizeOfVirtQueueDesc * id) := by
  induction h with
  | refl => exact ⟨hs, fun _ _ => rfl⟩
  | @tail u w _ hstep ih =>
    obtain ⟨hu, htable⟩ := ih
    obtain ⟨hdesc, hflags, -, -⟩ := chainStep_next hstep.1
    obtain ⟨w', hw', hsame⟩ := hinert u hu (hdesc ▸ ⟨hflags, hstep.2⟩)
    obtain rfl := Iter.next.inj (Except.ok.inj (hstep.1.symm.trans hw'))
    exact ⟨hu.tail hstep.1, fun id hid => (hsame id hid).trans (htable id hid)⟩

/-- A loop that is caught in a table that stays goes on for ever. -/
theorem Caught.endless {start : ChainState σ} (hcaught : Caught v pages vm self isWrite s)
    (hinert : Inert v pages vm self isWrite start) (hstart : start.descriptor.next < 2 ^ 16)
    (hs : Reaches (self.chainStep v pages vm isWrite) start s) (n : ℕ) :
    loop (self.chainStep v pages vm isWrite) n start = .error .outOfFuel := by
  obtain ⟨s', hcycle, hback⟩ := hcaught
  -- on the way to `s`, or at a descriptor of the cycle with the table that `s` has
  refine loop_endless (I := fun t => Reaches (self.chainStep v pages vm isWrite) start t ∧
    (Reaches (self.chainStep v pages vm isWrite) t s ∨
      (∀ id < 2 ^ 16, VirtQueueDesc.ofMemory t.env.memory (self.descriptor + sizeOfVirtQueueDesc * id) =
        VirtQueueDesc.ofMemory s.env.memory (self.descriptor + sizeOfVirtQueueDesc * id)) ∧
      ∃ u, Relation.ReflTransGen (EmptyStep v pages vm self isWrite) s u ∧
        Relation.TransGen (EmptyStep v pages vm self isWrite) u s' ∧
        t.descriptor.next = u.descriptor.next)) ?_ n start ⟨.refl, .inl hs⟩
  have hgo : ∀ t, Reaches (self.chainStep v pages vm isWrite) start t →
      (∀ id < 2 ^ 16, VirtQueueDesc.ofMemory t.env.memory (self.descriptor + sizeOfVirtQueueDesc * id) =
        VirtQueueDesc.ofMemory s.env.memory (self.descriptor + sizeOfVirtQueueDesc * id)) →
      ∀ u, Relation.ReflTransGen (EmptyStep v pages vm self isWrite) s u →
        Relation.TransGen (EmptyStep v pages vm self isWrite) u s' →
        t.descriptor.next = u.descriptor.next →
        ∃ t', self.chainStep v pages vm isWrite t = .ok (.next t') ∧
          (∀ id < 2 ^ 16, VirtQueueDesc.ofMemory t'.env.memory
              (self.descriptor + sizeOfVirtQueueDesc * id) =
            VirtQueueDesc.ofMemory s.env.memory (self.descriptor + sizeOfVirtQueueDesc * id)) ∧
          ∃ u, Relation.ReflTransGen (EmptyStep v pages vm self isWrite) s u ∧
            Relation.TransGen (EmptyStep v pages vm self isWrite) u s' ∧
            t'.descriptor.next = u.descriptor.next := by
    intro t ht htable u hsu hus' hnext
    obtain ⟨w, huw, hws'⟩ := Relation.TransGen.head'_iff.mp hus'
    obtain ⟨hu, hutable⟩ := hinert.table_eq hs hsu
    obtain ⟨hwdesc, hflags, -, -⟩ := chainStep_next huw.1
    have hid := reaches_next_lt hstart ht
    have hsame : self.nextDescriptor t = w.descriptor := by
      rw [hwdesc, nextDescriptor, nextDescriptor, htable _ hid, ← hnext, hutable _ hid]
    obtain ⟨t', ht', htable'⟩ := hinert t ht (hsame ▸ ⟨hflags, huw.2⟩)
    have hdesc : t'.descriptor = w.descriptor := (chainStep_next ht').1.trans hsame
    refine ⟨t', ht', fun id hid => (htable' id hid).trans (htable id hid), ?_⟩
    obtain rfl | hws' := Relation.reflTransGen_iff_eq_or_transGen.mp hws'
    · exact ⟨s, .refl, hcycle, by rw [hdesc, hback]⟩
    · exact ⟨w, hsu.tail huw, hws', by rw [hdesc]⟩
  rintro t ⟨ht, hto | ⟨htable, u, hsu, hus', hnext⟩⟩
  · obtain rfl | ⟨t', hstep, hrest⟩ := hto.cases_head
    · obtain ⟨t', hstep, hcyc⟩ := hgo t ht (fun _ _ => rfl) t .refl hcycle rfl
      exact ⟨t', hstep, ht.tail hstep, .inr hcyc⟩
    · exact ⟨t', hstep, ht.tail hstep, .inl hrest⟩
  · obtain ⟨t', hstep, hcyc⟩ := hgo t ht htable u hsu hus' hnext
    exact ⟨t', hstep, ht.tail hstep, .inr hcyc⟩

/-- An iteration at an empty descriptor whose address is not in the RAM of the guest. -/
theorem chainStep_outside (htable : self.descriptor ≠ 0)
    (hlt : self.descriptor + sizeOfVirtQueueDesc * s.descriptor.next < 2 ^ 64)
    (hempty : Empty (self.nextDescriptor s)) (htotal : s.totalSize < 2 ^ 32)
    (hout : vm.getPhysicalAddress (self.nextDescriptor s).address = .ok none) :
    self.chainStep v pages vm isWrite s = .ok (.next { s with
      descriptor := self.nextDescriptor s
      status := virtioBlkSIoerr
      env := s.env.touch (self.descriptor + sizeOfVirtQueueDesc * s.descriptor.next)
        sizeOfVirtQueueDesc }) := by
  have hsize : sizeOfVirtQueueDesc = 16 := rfl
  have hread : self.getDescriptor s.descriptor.next s.env = .ok (some (self.nextDescriptor s),
      s.env.touch (self.descriptor + sizeOfVirtQueueDesc * s.descriptor.next) sizeOfVirtQueueDesc) := by
    rw [getDescriptor, if_pos htable, checkedMul_of_lt (by omega), Exec.ok_bind,
      checkedAdd_of_lt hlt, Exec.ok_bind]
    rfl
  have hsum : checkedAdd 32 s.totalSize 0 = .ok s.totalSize := checkedAdd_of_lt htotal
  rw [chainStep, hread, Exec.ok_bind]
  dsimp only
  rw [if_neg hempty.1, hempty.2, hsum, Exec.ok_bind, hout, Exec.ok_bind]
  rfl

/-! ## The loop over the available ring -/

theorem getNextAvailId_inv {id : ℕ} {self' : VirtioBlkMmio} {env env' : BlkEnv σ}
    (h : self.getNextAvailId env = .ok (some id, self', env')) :
    self'.lastAvailId = self.lastAvailId + 1 ∧ self'.lastAvailId < 2 ^ 16 := by
  unfold getNextAvailId at h
  dsimp only at h
  split_ifs at h
  · cases h
  · simp only [Exec.bind_eq_ok, checkedAdd_eq_ok] at h
    obtain ⟨next, -, lastAvailId, ⟨hlt, rfl⟩, h⟩ := h
    cases h
    exact ⟨rfl, hlt⟩

/-- An element of the used ring is stored, and then the index. -/
theorem writeUsed_eq_store {id length : ℕ} {self' : VirtioBlkMmio} {env env' : BlkEnv σ}
    (h : self.writeUsed id length env = .ok (self', env')) :
    self' = { self with usedId := self.usedId + 1 } ∧ self.usedId + 1 < 2 ^ 16 ∧
      env' = (env.store (self.usedRing + sizeOfRingHeader +
          sizeOfVirtQueueUsedElement * (self.usedId % (self.queueSize % 2 ^ 16)))
        sizeOfVirtQueueUsedElement (id + length * 2 ^ 32)).store (self.usedRing + 2) 2
          (self.usedId + 1) := by
  simp only [writeUsed, Exec.bind_eq_ok, checkedMod_eq_ok, checkedMul_eq_ok, checkedAdd_eq_ok] at h
  obtain ⟨index, ⟨-, rfl⟩, usedId, ⟨hlt, rfl⟩, ring, ⟨-, rfl⟩, element, ⟨-, rfl⟩, address,
    ⟨-, rfl⟩, h⟩ := h
  split_ifs at h
  cases h
  exact ⟨rfl, hlt, rfl⟩

/-- The status byte is stored if it is in the RAM, and then the request is put into the used ring. -/
theorem finishRequest_cases {id : ℕ} {self' : VirtioBlkMmio} {env' : BlkEnv σ}
    (h : self.finishRequest vm id s = .ok (self', env')) :
    ¬vm.Contains s.descriptor.address ∧ self.writeUsed id s.totalSize s.env = .ok (self', env') ∨
      vm.Contains s.descriptor.address ∧ s.totalSize + s.descriptor.length < 2 ^ 32 ∧
        self.writeUsed id (s.totalSize + s.descriptor.length)
          (s.env.store (vm.physical s.descriptor.address) 1 s.status) = .ok (self', env') := by
  simp only [finishRequest, Exec.bind_eq_ok] at h
  obtain ⟨address, haddress, h⟩ := h
  obtain ⟨rfl, hout⟩ | ⟨rfl, hin⟩ := VM.contains_of_eq_ok haddress
  · exact .inl ⟨hout, h⟩
  · simp only [Exec.bind_eq_ok, checkedAdd_eq_ok] at h
    obtain ⟨totalSize, ⟨hlt, rfl⟩, h⟩ := h
    exact .inr ⟨hin, hlt, h⟩

theorem finishRequest_inv {id : ℕ} {self' : VirtioBlkMmio} {env' : BlkEnv σ}
    (h : self.finishRequest vm id s = .ok (self', env')) :
    self'.lastAvailId = self.lastAvailId := by
  obtain ⟨-, h⟩ | ⟨-, -, h⟩ := finishRequest_cases h
  · rw [(writeUsed_eq_store h).1]
  · rw [(writeUsed_eq_store h).1]

/-- What is read for a request, up to where it is malformed. -/
theorem parseRequest_cases {id : ℕ} {r : Option BlkRequest} {env env' : BlkEnv σ}
    (h : self.parseRequest vm id env = .ok (r, env')) :
    let head := env.memory.value (self.availRing + sizeOfRingHeader + 2 * id) 2
    let header := VirtQueueDesc.ofMemory env.memory (self.descriptor + sizeOfVirtQueueDesc * head)
    let blkReq := vm.physical header.address
    let entryRead := env.touch (self.availRing + sizeOfRingHeader + 2 * id) 2
    let headRead := entryRead.touch (self.descriptor + sizeOfVirtQueueDesc * head) sizeOfVirtQueueDesc
    self.availRing = 0 ∧ r = none ∧ env' = env ∨
    self.descriptor = 0 ∧ r = none ∧ env' = entryRead ∨
    self.descriptor ≠ 0 ∧ (header.length = sizeOfVirtioBlkReq → ¬vm.Contains header.address) ∧
      r = none ∧ env' = headRead ∨
    self.descriptor ≠ 0 ∧ header.length = sizeOfVirtioBlkReq ∧ vm.Contains header.address ∧
      env' = (headRead.touch blkReq 4).touch (blkReq + 8) 8 ∧
      (header.flags &&& virtQueueDescFlagsNext = 0 ∧ r = none ∨
        header.flags &&& virtQueueDescFlagsNext ≠ 0 ∧
          r = some ⟨head, header, env.memory.value blkReq 4 == virtioBlkTypeOut,
            (env.memory.value (blkReq + 8) 8 <<< 9) % 2 ^ 64⟩) := by
  intro head header blkReq entryRead headRead
  simp only [parseRequest, getDescriptorId] at h
  split_ifs at h with havail
  · simp only [bind_assoc, Exec.pure_eq_ok, Exec.ok_bind, Exec.bind_eq_ok, checkedAdd_eq_ok,
      checkedMul_eq_ok] at h
    obtain ⟨ring, ⟨-, rfl⟩, index, ⟨-, rfl⟩, address, ⟨-, rfl⟩, ⟨d, env₁⟩, hd, h⟩ := h
    obtain ⟨hnull, rfl, rfl⟩ | ⟨hnull, rfl, rfl⟩ := getDescriptor_eq_ok hd
    · cases h
      exact .inr (.inl ⟨hnull, rfl, rfl⟩)
    rw [BlkEnv.ofMemory_touch] at h
    dsimp only at h
    split_ifs at h with hlength hflags
    · cases h
      exact .inr (.inr (.inl ⟨hnull, fun hc => absurd hc hlength, rfl, rfl⟩))
    all_goals
      rw [Exec.bind_eq_ok] at h
      obtain ⟨a, ha, h⟩ := h
      obtain ⟨rfl, hout⟩ | ⟨rfl, hin⟩ := VM.contains_of_eq_ok ha
      · cases h
        exact .inr (.inr (.inl ⟨hnull, fun _ => hout, rfl, rfl⟩))
      cases h
    · exact .inr (.inr (.inr ⟨hnull, not_not.mp hlength, hin, rfl, .inl ⟨hflags, rfl⟩⟩))
    · exact .inr (.inr (.inr ⟨hnull, not_not.mp hlength, hin, rfl, .inr ⟨hflags, rfl⟩⟩))
  · cases h
    exact .inl ⟨not_not.mp havail, rfl, rfl⟩

/-- The first descriptor of a request is read from the table, and its sector from behind the header. -/
theorem parseRequest_eq_some {id : ℕ} {request : BlkRequest} {env env' : BlkEnv σ}
    (h : self.parseRequest vm id env = .ok (some request, env')) :
    (∃ head, request.descriptor =
      VirtQueueDesc.ofMemory env.memory (self.descriptor + sizeOfVirtQueueDesc * head)) ∧
    request.offset =
      (env.memory.value (vm.physical request.descriptor.address + 8) 8 <<< 9) % 2 ^ 64 := by
  obtain ⟨-, hnone, -⟩ | ⟨-, hnone, -⟩ | ⟨-, -, hnone, -⟩ | ⟨-, -, -, -, ⟨-, hnone⟩ | ⟨-, hsome⟩⟩ :=
    parseRequest_cases h
  · cases hnone
  · cases hnone
  · cases hnone
  · cases hnone
  · cases hsome
    exact ⟨⟨_, rfl⟩, rfl⟩

theorem parseRequest_bytes {id : ℕ} {r : Option BlkRequest} {env env' : BlkEnv σ}
    (h : self.parseRequest vm id env = .ok (r, env')) : env'.memory.bytes = env.memory.bytes := by
  obtain ⟨-, -, rfl⟩ | ⟨-, -, rfl⟩ | ⟨-, -, -, rfl⟩ | ⟨-, -, -, rfl, -⟩ :=
    parseRequest_cases h
  all_goals rfl

theorem parseRequest_next_lt {id : ℕ} {request : BlkRequest} {env env' : BlkEnv σ}
    (h : self.parseRequest vm id env = .ok (some request, env')) :
    request.descriptor.next < 2 ^ 16 := by
  obtain ⟨⟨head, hdescriptor⟩, -⟩ := parseRequest_eq_some h
  rw [hdescriptor]
  exact VirtQueueDesc.next_lt _ _

/-- An iteration takes one entry of the available ring. -/
theorem operationStep_next {s s' : VirtioBlkMmio × BlkEnv σ}
    (h : operationStep v pages vm s = .ok (.next s')) :
    s'.1.lastAvailId = s.1.lastAvailId + 1 ∧ s'.1.lastAvailId < 2 ^ 16 := by
  simp only [operationStep, Exec.bind_eq_ok] at h
  obtain ⟨⟨id, self, env⟩, hid, h⟩ := h
  cases id with
  | none => cases h
  | some id =>
    obtain ⟨hlast, hlt⟩ := getNextAvailId_inv hid
    simp only [Exec.bind_eq_ok] at h
    obtain ⟨⟨request, env₁⟩, -, h⟩ := h
    cases request with
    | none => cases h
    | some request =>
      simp only [Exec.bind_eq_ok] at h
      obtain ⟨⟨complete, chain⟩, -, h⟩ := h
      cases complete with
      | false => cases h
      | true =>
        simp only [Exec.bind_eq_ok] at h
        obtain ⟨⟨self', env'⟩, hfinish, h⟩ := h
        obtain rfl := Iter.next.inj (Except.ok.inj h)
        have hkeep := finishRequest_inv hfinish
        exact ⟨hkeep.trans hlast, by rw [hkeep]; exact hlt⟩

theorem halts_getNextAvailId (env : BlkEnv σ) : (self.getNextAvailId env).Halts := by
  refine Exec.halts_ite (Exec.halts_error (by decide) (by decide)) ?_
  refine Exec.halts_ite (Exec.halts_ok _) ?_
  exact (halts_checkedMod _ _).bind fun _ _ => (halts_checkedAdd _ _ _).bind fun _ _ =>
    Exec.halts_ok _

theorem halts_writeUsed (id length : ℕ) (env : BlkEnv σ) : (self.writeUsed id length env).Halts := by
  refine (halts_checkedMod _ _).bind fun index _ => ?_
  refine (halts_checkedAdd _ _ _).bind fun usedId _ => ?_
  refine (halts_checkedAdd _ _ _).bind fun ring _ => ?_
  refine (halts_checkedMul _ _ _).bind fun element _ => ?_
  refine (halts_checkedAdd _ _ _).bind fun address _ => ?_
  exact Exec.halts_ite (Exec.halts_error (by decide) (by decide)) (Exec.halts_ok _)

theorem halts_finishRequest (id : ℕ) (s : ChainState σ) : (self.finishRequest vm id s).Halts := by
  refine (halts_getPhysicalAddress _).bind fun address _ => ?_
  cases address with
  | none => exact halts_writeUsed _ _ _
  | some address => exact (halts_checkedAdd _ _ _).bind fun totalSize _ => halts_writeUsed _ _ _

theorem halts_parseRequest (id : ℕ) (env : BlkEnv σ) : (self.parseRequest vm id env).Halts := by
  have hid : (self.getDescriptorId id env).Halts := Exec.halts_ite
    ((halts_checkedAdd _ _ _).bind fun _ _ => (halts_checkedMul _ _ _).bind fun _ _ =>
      (halts_checkedAdd _ _ _).bind fun _ _ => Exec.halts_ok _) (Exec.halts_ok _)
  refine hid.bind fun q _ => ?_
  obtain ⟨descriptorId, env₁⟩ := q
  cases descriptorId with
  | none => exact Exec.halts_ok _
  | some descriptorId =>
    refine (halts_getDescriptor _ _).bind fun q _ => ?_
    obtain ⟨d, env₂⟩ := q
    cases d with
    | none => exact Exec.halts_ok _
    | some d =>
      refine Exec.halts_ite (Exec.halts_ok _) ?_
      refine (halts_getPhysicalAddress _).bind fun address _ => ?_
      cases address with
      | none => exact Exec.halts_ok _
      | some address => exact Exec.halts_ite (Exec.halts_ok _) (Exec.halts_ok _)

/-- No request that the loop over the available ring comes to is caught. -/
def NeverCaught (v : Fat32) (pages : Pages σ) (vm : VM) (start : VirtioBlkMmio × BlkEnv σ) : Prop :=
  ∀ self request env, AtRequest v pages vm self start request env →
    ∀ s, Reaches (self.chainStep v pages vm request.isWrite) (chainStart request env) s →
      ¬Caught v pages vm self request.isWrite s

theorem NeverCaught.halts {env : BlkEnv σ} (h : NeverCaught v pages vm (self, env)) :
    (self.operation v pages vm env).Halts := by
  refine Exec.Halts.bind ?_ fun q _ => ?_
  · refine loop_halts (I := fun s => Reaches (operationStep v pages vm) (self, env) s)
      (fun s => 2 ^ 16 - s.1.lastAvailId) (fun s hs => ?_) (fun s s' hs hstep => ?_) _ _ .refl (by omega)
    · refine (halts_getNextAvailId _).bind fun q hq => ?_
      obtain ⟨id, self₁, env₁⟩ := q
      cases id with
      | none => exact Exec.halts_ok _
      | some id =>
        refine (halts_parseRequest _ _).bind fun q hq' => ?_
        obtain ⟨request, env₂⟩ := q
        cases request with
        | none => exact Exec.halts_ok _
        | some request =>
          refine (halts_chain (h self₁ request env₂ ⟨s, id, env₁, hs, hq, hq'⟩)).bind fun q _ => ?_
          obtain ⟨complete, chain⟩ := q
          cases complete with
          | false => exact Exec.halts_ok _
          | true => exact (halts_finishRequest _ _).bind fun _ _ => Exec.halts_ok _
    · obtain ⟨hlast, hlt⟩ := operationStep_next hstep
      exact ⟨hs.tail hstep, by omega⟩
  · obtain ⟨complete, self', env'⟩ := q
    cases complete with
    | false => exact Exec.halts_ok _
    | true => exact Exec.halts_ok _

/-- A request that is caught in a table that stays is never done. -/
theorem AtRequest.endless {start : VirtioBlkMmio × BlkEnv σ} {request : BlkRequest} {env : BlkEnv σ}
    (h : AtRequest v pages vm self start request env)
    (hinert : Inert v pages vm self request.isWrite (chainStart request env))
    (hs : Reaches (self.chainStep v pages vm request.isWrite) (chainStart request env) s)
    (hcaught : Caught v pages vm self request.isWrite s) :
    start.1.operation v pages vm start.2 = .error .outOfFuel := by
  obtain ⟨t, id, env₁, hreach, hid, hparse⟩ := h
  have hchain := hcaught.endless hinert (parseRequest_next_lt hparse) hs Fat32.maxIterations
  have hstep : operationStep v pages vm t = .error .outOfFuel := by
    rw [operationStep, hid, Exec.ok_bind]
    dsimp only
    rw [hparse, Exec.ok_bind]
    dsimp only
    rw [chainStart] at hchain
    rw [hchain, Exec.error_bind]
  obtain ⟨m, hm, hloop⟩ := loop_of_reaches (fun s => 2 ^ 16 - s.1.lastAvailId) (fun s s' hs => by
    obtain ⟨hlast, hlt⟩ := operationStep_next hs
    omega) hreach (n := 2 ^ 16 + 1) (by omega)
  obtain ⟨m, rfl⟩ := Nat.exists_eq_add_of_lt hm
  rw [operation, hloop, loop, hstep, Exec.error_bind]

/-- A notification ends if no request is caught in a cycle of empty descriptors. It is exact for a
request whose empty descriptors leave the descriptor table as it is. -/
theorem operation_halts_iff (self : VirtioBlkMmio) (env : BlkEnv σ) :
    (NeverCaught v pages vm (self, env) → (self.operation v pages vm env).Halts) ∧
    ((self.operation v pages vm env).Halts → ∀ self' request env',
      AtRequest v pages vm self' (self, env) request env' →
      Inert v pages vm self' request.isWrite (chainStart request env') →
      ∀ s, Reaches (self'.chainStep v pages vm request.isWrite) (chainStart request env') s →
        ¬Caught v pages vm self' request.isWrite s) := by
  refine ⟨NeverCaught.halts, fun hhalts self' request env' hat hinert s hs hcaught => ?_⟩
  exact (hhalts _ (hat.endless hinert hs hcaught)).1 rfl

/-! ### Requests whose links lead back -/

/-- Bytes of the RAM : a table at 0x80001000 whose first descriptor is the header of a request, with
16 bytes at the start of the RAM, and whose second one is empty with `next` as its link; one entry in
the available ring behind it. -/
def linkedBytes (flags next a : ℕ) : BitVec 8 :=
  if a = 0x80001003 then 0x40#8 else if a = 0x80001008 then 16#8
  else if a = 0x8000100C ∨ a = 0x8000100E ∨ a = 0x80001402 then 1#8
  else if a = 0x8000101C then BitVec.ofNat 8 flags
  else if a = 0x8000101E then BitVec.ofNat 8 next else 0#8

/-- The host with these bytes. -/
def linkedEnv (flags next : ℕ) : BlkEnv Unit :=
  ⟨⟨⟨linkedBytes flags next, []⟩, fun _ => 0, ()⟩, [], []⟩

def linkedVm : VM :=
  ⟨0x40000000, 0x80000000, 0x10000000⟩

/-- A device with a queue of 64 entries at 0x80001000. -/
def linkedDevice (lastAvailId : ℕ) : VirtioBlkMmio where
  file := ⟨2, 512⟩
  interruptStatus := 0
  status := 15
  queueSize := 64
  queueReady := false
  pageSize := 4096
  descriptor := 0x80001000
  availRing := 0x80001400
  usedRing := 0x80002000
  lastAvailId := lastAvailId
  usedId := 0

/-- The request in these bytes, and the host behind its header. -/
def linkedRequest : BlkRequest :=
  ⟨0, ⟨0x40000000, 16, 1, 1⟩, false, 0⟩

def linkedRead (flags next : ℕ) : BlkEnv Unit :=
  (((((linkedEnv flags next).touch 0x80001402 2).touch 0x80001404 2).touch 0x80001000 16).touch
    0x80000000 4).touch 0x80000008 8

theorem linked_getNextAvailId (flags next : ℕ) :
    (linkedDevice 0).getNextAvailId (linkedEnv flags next) =
      .ok (some 0, linkedDevice 1, (linkedEnv flags next).touch 0x80001402 2) :=
  rfl

/-- The bytes of a request that writes the file. A buffer of 512 bytes at 0x48000000 and an empty
descriptor link to each other. -/
def cycleBytes (a : ℕ) : BitVec 8 :=
  if a = 0x80000000 then 1#8 else if a = 0x80001013 then 0x48#8 else if a = 0x80001019 then 2#8
  else if a = 0x8000102C ∨ a = 0x8000102E then 1#8 else linkedBytes 1 2 a

/-- The host with these bytes, before and behind the header of the request. -/
def cycleEnv : BlkEnv Unit :=
  ⟨⟨⟨cycleBytes, []⟩, fun _ => 0, ()⟩, [], []⟩

def cycleRead : BlkEnv Unit :=
  ((((cycleEnv.touch 0x80001402 2).touch 0x80001404 2).touch 0x80001000 16).touch 0x80000000 4).touch
    0x80000008 8

/-- Each descriptor of the two is read again as long as the memory is the same. -/
theorem cycle_next {s : ChainState Unit} (hbytes : s.env.memory.bytes = cycleBytes) :
    (s.descriptor.next = 1 → (linkedDevice 1).nextDescriptor s = ⟨0x48000000, 512, 1, 2⟩) ∧
      (s.descriptor.next = 2 → (linkedDevice 1).nextDescriptor s = ⟨0, 0, 1, 1⟩) := by
  constructor
  all_goals
    intro hnext
    rw [nextDescriptor, hnext, VirtQueueDesc.ofMemory_congr (m := cycleEnv.memory)
      fun x _ _ => congrFun hbytes x]
    rfl

theorem cycle_reaches {s : ChainState Unit} (h : Reaches ((linkedDevice 1).chainStep (Fat32.stepVolume 1 2)
      Fat32.onePage linkedVm true) (chainStart { linkedRequest with isWrite := true } cycleRead) s) :
    s.env.memory.bytes = cycleBytes ∧ (s.descriptor.next = 1 ∨ s.descriptor.next = 2) := by
  induction h with
  | refl => exact ⟨rfl, .inl rfl⟩
  | @tail s s' _ hstep ih =>
    obtain ⟨hbytes, hnext⟩ := ih
    refine ⟨(chainStep_bytes (Fat32.stepVolume_geometry 1 2) hstep).trans hbytes, ?_⟩
    rw [(chainStep_next hstep).1]
    obtain ⟨hfirst, hsecond⟩ := cycle_next hbytes
    obtain hnext | hnext := hnext
    · rw [hfirst hnext]
      exact .inr rfl
    · rw [hsecond hnext]
      exact .inl rfl

/-- The buffer and the empty descriptor are read in turn, and the count overflows. -/
theorem operation_halts_iff_cycle :
    ((linkedDevice 0).operation (Fat32.stepVolume 1 2) Fat32.onePage linkedVm cycleEnv).Halts := by
  have hid : (linkedDevice 0).getNextAvailId cycleEnv =
    .ok (some 0, linkedDevice 1, cycleEnv.touch 0x80001402 2) := rfl
  have hparse : (linkedDevice 1).parseRequest linkedVm 0 (cycleEnv.touch 0x80001402 2) =
    .ok (some { linkedRequest with isWrite := true }, cycleRead) := rfl
  refine (operation_halts_iff (linkedDevice 0) cycleEnv).1 ?_
  rintro self request env ⟨t, id, env₁, hreach, hid', hparse'⟩ s hs ⟨s', hcycle, hback⟩
  -- the loop over the descriptors has no end, so the first request is the only one
  obtain rfl | ⟨t₁, hstep, -⟩ := hreach.cases_head
  · cases hid.symm.trans hid'
    cases hparse.symm.trans hparse'
    obtain ⟨hbytes, hnext⟩ := cycle_reaches hs
    obtain ⟨s₁, ⟨hstep, hempty⟩, hrest⟩ := Relation.TransGen.head'_iff.mp hcycle
    have hdescriptor := (chainStep_next hstep).1
    obtain hnext | hnext := hnext
    · rw [hdescriptor, (cycle_next hbytes).1 hnext] at hempty
      cases hempty
    · rw [(cycle_next hbytes).2 hnext] at hdescriptor
      have hnext₁ : s₁.descriptor.next = 1 := congrArg VirtQueueDesc.next hdescriptor
      obtain rfl | ⟨s₂, ⟨hstep₂, hempty₂⟩, -⟩ := hrest.cases_head
      · omega
      · rw [(chainStep_next hstep₂).1, (cycle_next (cycle_reaches (hs.tail hstep)).1).1 hnext₁] at hempty₂
        cases hempty₂
  · exfalso
    rw [operationStep, hid, Exec.ok_bind] at hstep
    dsimp only at hstep
    rw [hparse, Exec.ok_bind] at hstep
    simp only [Exec.bind_eq_ok] at hstep
    obtain ⟨r, hchain, -⟩ := hstep
    obtain ⟨u, hreached, hdone⟩ := exists_reaches_done hchain
    obtain ⟨hbytes, hnext⟩ := cycle_reaches hreached
    obtain ⟨hnull, -⟩ | ⟨-, hflags, -⟩ := chainStep_eq_done hdone
    · cases hnull
    · obtain hnext | hnext := hnext
      · rw [(cycle_next hbytes).1 hnext] at hflags
        cases hflags
      · rw [(cycle_next hbytes).2 hnext] at hflags
        cases hflags

/-- The second descriptor links to itself, and has no length. -/
theorem operation_endless : (linkedDevice 0).operation (Fat32.stepVolume 1 2) Fat32.onePage linkedVm
    (linkedEnv 1 1) = .error .outOfFuel := by
  have hread : ∀ s : ChainState Unit, s.descriptor.next = 1 →
      s.env.memory.bytes = linkedBytes 1 1 → (linkedDevice 1).nextDescriptor s = ⟨0, 0, 1, 1⟩ := by
    intro s hnext hbytes
    rw [nextDescriptor, hnext, VirtQueueDesc.ofMemory_congr (m := (linkedEnv 1 1).memory)
      fun x _ _ => congrFun hbytes x]
    rfl
  have hstep : ∀ s : ChainState Unit, s.descriptor.next = 1 → s.totalSize = 0 →
      s.env.memory.bytes = linkedBytes 1 1 →
      (linkedDevice 1).chainStep (Fat32.stepVolume 1 2) Fat32.onePage linkedVm false s = .ok (.next
        { s with
          descriptor := (linkedDevice 1).nextDescriptor s
          status := virtioBlkSIoerr
          env := s.env.touch ((linkedDevice 1).descriptor + sizeOfVirtQueueDesc * s.descriptor.next)
            sizeOfVirtQueueDesc }) := by
    intro s hnext htotal hbytes
    have hd := hread s hnext hbytes
    exact chainStep_outside (by decide) (by rw [hnext]; decide) (by rw [hd]; exact ⟨by decide, rfl⟩)
      (by rw [htotal]; decide) (by rw [hd]; rfl)
  have hreach : ∀ s, Reaches ((linkedDevice 1).chainStep (Fat32.stepVolume 1 2) Fat32.onePage linkedVm
      false) (chainStart linkedRequest (linkedRead 1 1)) s → s.descriptor.next = 1 ∧
        s.totalSize = 0 ∧ s.env.memory.bytes = linkedBytes 1 1 := by
    intro s hs
    induction hs with
    | refl => exact ⟨rfl, rfl, rfl⟩
    | @tail s s' _ hs' ih =>
      obtain ⟨hnext, htotal, hbytes⟩ := ih
      obtain rfl := Iter.next.inj (Except.ok.inj ((hstep s hnext htotal hbytes).symm.trans hs'))
      exact ⟨congrArg VirtQueueDesc.next (hread s hnext hbytes), htotal, hbytes⟩
  have hat : AtRequest (Fat32.stepVolume 1 2) Fat32.onePage linkedVm (linkedDevice 1)
      (linkedDevice 0, linkedEnv 1 1) linkedRequest (linkedRead 1 1) :=
    ⟨_, 0, _, .refl, linked_getNextAvailId 1 1, rfl⟩
  refine hat.endless (s := chainStart linkedRequest (linkedRead 1 1)) (fun s hs _ => ?_) .refl ?_
  · obtain ⟨hnext, htotal, hbytes⟩ := hreach s hs
    exact ⟨_, hstep s hnext htotal hbytes, fun id _ => BlkEnv.ofMemory_touch _ _ _⟩
  · have hd := hread (chainStart linkedRequest (linkedRead 1 1)) rfl rfl
    have hempty := hstep (chainStart linkedRequest (linkedRead 1 1)) rfl rfl rfl
    rw [hd] at hempty
    exact ⟨_, .single ⟨hempty, rfl⟩, rfl⟩

end VirtioBlkMmio

end MiniVisor
