import MiniVisor.GicRedistributorReadback
import MiniVisor.Pl011
import MiniVisor.VirtioBlkMmio

/-!
# Accesses that trap

A load or a store of the guest to a device traps, and `data_abort_handler` in `exception.rs` does it
instead : it finds the width, the register and the address in the syndrome registers, and calls the
handler of the device. A store passes the register, or its lower half, to the device, and a load
writes back what the device returned; neither is cut to the width of the access.

`guestAccess` is the whole trap, from the registers of the guest to its registers, and
`guestAccess_iff` says when it does what the instruction does. -/

namespace MiniVisor

open Machine

/-! ## Devices of a VM -/

/-- A `MmioEntry`, whose handler works on the state `σ` of all devices. -/
structure MmioEntry (σ : Type) where
  baseAddress : ℕ
  length : ℕ
  read : ℕ → ℕ → σ → Exec (Except Unit (BitVec 64) × σ)
  write : ℕ → ℕ → BitVec 64 → σ → Exec (Except Unit Unit × σ)

/-- `VM::handle_mmio_read`. -/
def handleMmioRead {σ : Type} (address accessWidth : ℕ) (s : σ) :
    List (MmioEntry σ) → Exec (Except Unit (BitVec 64) × σ)
  | [] => .ok (.error (), s)
  | e :: entries =>
    if e.baseAddress ≤ address then do
      let stop ← checkedAdd 64 e.baseAddress e.length
      if address < stop then e.read (address - e.baseAddress) accessWidth s
      else handleMmioRead address accessWidth s entries
    else handleMmioRead address accessWidth s entries

/-- `VM::handle_mmio_write`. -/
def handleMmioWrite {σ : Type} (address accessWidth : ℕ) (value : BitVec 64) (s : σ) :
    List (MmioEntry σ) → Exec (Except Unit Unit × σ)
  | [] => .ok (.error (), s)
  | e :: entries =>
    if e.baseAddress ≤ address then do
      let stop ← checkedAdd 64 e.baseAddress e.length
      if address < stop then e.write (address - e.baseAddress) accessWidth value s
      else handleMmioWrite address accessWidth value s entries
    else handleMmioWrite address accessWidth value s entries

/-- The devices of a VM, with the CPU it runs on, the host, and what it has printed, newest first. -/
structure Devices (σ : Type) where
  pl011Mmio : Pl011Mmio
  virtioBlkMmio : VirtioBlkMmio
  gicDistributorMmio : GicDistributorMmio
  gicRedistributorMmio : GicRedistributorMmio
  cpu : Cpu
  env : BlkEnv σ
  printed : List (BitVec 8)

section Handlers

variable {σ : Type} (v : Fat32) (pages : Pages σ) (vm : VM)

def pl011Entry : MmioEntry (Devices σ) where
  baseAddress := 0x9000000
  length := 0x1000
  read offset _ s :=
    let (value, pl011Mmio) := s.pl011Mmio.read offset
    .ok (.ok value, { s with pl011Mmio })
  write offset _ value s :=
    let (c, pl011Mmio) := s.pl011Mmio.write offset value
    .ok (.ok (), { s with pl011Mmio, printed := c.toList ++ s.printed })

/-- The interrupt at the end of `operation` is triggered at the distributor of the VM. -/
def virtioBlkEntry : MmioEntry (Devices σ) where
  baseAddress := 0xa000000
  length := 0x0200
  read offset _ s := do
    let value ← s.virtioBlkMmio.read offset
    pure (.ok (BitVec.ofNat 64 value), s)
  write offset _ value s := do
    let (virtioBlkMmio, env) ← s.virtioBlkMmio.write v pages vm offset value.toNat s.env
    if env.interrupts.length = s.env.interrupts.length then
      pure (.ok (), { s with virtioBlkMmio, env })
    else
      let (gicDistributorMmio, cpu) ← s.gicDistributorMmio.triggerInterrupt s.cpu virtioBlkIntId none
      pure (.ok (), { s with virtioBlkMmio, env, gicDistributorMmio, cpu })

def gicDistributorEntry : MmioEntry (Devices σ) where
  baseAddress := 0x8000000
  length := GicDistributorMmio.mmioSize
  read offset accessWidth s := do
    let value ← s.gicDistributorMmio.read offset accessWidth
    pure (.ok value, s)
  write offset accessWidth value s := do
    let (gicDistributorMmio, cpu) ← s.gicDistributorMmio.write s.cpu offset accessWidth value
    pure (.ok (), { s with gicDistributorMmio, cpu })

def gicRedistributorEntry : MmioEntry (Devices σ) where
  baseAddress := 0x80a0000
  length := GicRedistributor.gicrMmioSize
  read offset accessWidth s := do
    let value ← s.gicRedistributorMmio.read offset accessWidth
    pure (.ok value, s)
  write offset accessWidth value s := do
    let (gicRedistributorMmio, cpu) ← s.gicRedistributorMmio.write s.cpu offset accessWidth value
    pure (.ok (), { s with gicRedistributorMmio, cpu })

/-- The `mmio_handlers` that `create_vm` sets up. -/
def mmioHandlers : List (MmioEntry (Devices σ)) :=
  [pl011Entry, virtioBlkEntry v pages vm, gicDistributorEntry, gicRedistributorEntry]

end Handlers

/-! ## The trap -/

def esrEl2IssIsv : BitVec 64 := 1#64 <<< 24
def esrEl2IssSasBitsOffset : ℕ := 22
def esrEl2IssSas : BitVec 64 := 0b11#64 <<< esrEl2IssSasBitsOffset
def esrEl2IssSrtBitsOffset : ℕ := 16
def esrEl2IssSrt : BitVec 64 := 0b11111#64 <<< esrEl2IssSrtBitsOffset
def esrEl2IssSf : BitVec 64 := 1#64 <<< 15
def esrEl2IssWnr : BitVec 64 := 1#64 <<< 6
def hpfarEl2FipaBitsOffset : ℕ := 4
def hpfarEl2Fipa : BitVec 64 := ((1#64 <<< 44) - 1#64) &&& ~~~((1#64 <<< 4) - 1#64)

/-- The 32 words of `Registers`, `x0` to `x30` and the padding. -/
abbrev Registers := Fin 32 → BitVec 64

/-- The entry of the exception. The padding is stored from `xzr`. -/
def saveRegisters (x : Fin 31 → BitVec 64) : Registers :=
  fun i => if h : i.val < 31 then x ⟨i.val, h⟩ else 0#64

/-- `exit_exception`. The padding is loaded to `xzr`. -/
def restoreRegisters (registers : Registers) : Fin 31 → BitVec 64 :=
  fun i => registers i.castSucc

/-- The width of the access, in bits. -/
def accessWidth (esrEl2 : BitVec 64) : ℕ :=
  match ((esrEl2 &&& esrEl2IssSas) >>> esrEl2IssSasBitsOffset).toNat with
  | 0b00 => 8
  | 0b01 => 16
  | 0b10 => 32
  | _ => 64

def registerNumber (esrEl2 : BitVec 64) : Fin 32 :=
  (((esrEl2 &&& esrEl2IssSrt) >>> esrEl2IssSrtBitsOffset).setWidth 5).toFin

/-- The address of the access, as the guest sees it. -/
def faultAddress (hpfarEl2 farEl2 : BitVec 64) : BitVec 64 :=
  (((hpfarEl2 &&& hpfarEl2Fipa) >>> hpfarEl2FipaBitsOffset) <<< pageShift) |||
    (farEl2 &&& ((1#64 <<< pageShift) - 1#64))

/-- `expect` on the result of a handler. -/
def expectMmio {α σ : Type} : Except Unit α × σ → Exec (α × σ)
  | (.error _, _) => .error .unwrap
  | (.ok a, s) => .ok (a, s)

/-- `data_abort_handler`, with what it reads from `ESR_EL2`, `HPFAR_EL2` and `FAR_EL2`. -/
def dataAbortHandler {σ : Type} (entries : List (MmioEntry σ)) (esrEl2 hpfarEl2 farEl2 : BitVec 64)
    (registers : Registers) (s : σ) : Exec (Registers × σ) := do
  if esrEl2 &&& esrEl2IssIsv = 0#64 then .error .assertion
  else
    let is64bitRegister := esrEl2 &&& esrEl2IssSf ≠ 0#64
    let register := registers (registerNumber esrEl2)
    let address := (faultAddress hpfarEl2 farEl2).toNat
    if esrEl2 &&& esrEl2IssWnr ≠ 0#64 then
      let registerValue := if is64bitRegister then register else register &&& 0xffffffff#64
      let (_, s) ← expectMmio (← handleMmioWrite address (accessWidth esrEl2) registerValue s entries)
      pure (registers, s)
    else
      let (value, s) ← expectMmio (← handleMmioRead address (accessWidth esrEl2) s entries)
      pure (Function.update registers (registerNumber esrEl2) value, s)

/-- A trap of the guest, from its registers to its registers. -/
def guestAccess {σ : Type} (entries : List (MmioEntry σ)) (esrEl2 hpfarEl2 farEl2 : BitVec 64)
    (x : Fin 31 → BitVec 64) (s : σ) : Exec ((Fin 31 → BitVec 64) × σ) := do
  let (registers, s) ← dataAbortHandler entries esrEl2 hpfarEl2 farEl2 (saveRegisters x) s
  pure (restoreRegisters registers, s)

/-! ## What the instruction does -/

/-- The lowest `w` bits. -/
def lowBits (w : ℕ) (v : BitVec 64) : BitVec 64 :=
  (v.setWidth w).setWidth 64

/-- The width of the register, in bits. -/
def registerWidth (esrEl2 : BitVec 64) : ℕ :=
  if esrEl2 &&& esrEl2IssSf ≠ 0#64 then 64 else 32

/-- The registers with one of them changed. Register 31 is the zero register. -/
def setRegister (x : Fin 31 → BitVec 64) (n : Fin 32) (value : BitVec 64) : Fin 31 → BitVec 64 :=
  fun i => if i.castSucc = n then value else x i

/-- A store of the guest is done right : the device gets the lowest bits of the register. A byte of
`GICD_IPRIORITYR` or `GICR_IPRIORITYR` is the priority of one interrupt. -/
structure StoresRight (esrEl2 hpfarEl2 farEl2 : BitVec 64) (x : Fin 31 → BitVec 64) : Prop where
  passes : ∀ (σ : Type) (entries : List (MmioEntry σ)) (s : σ),
    guestAccess entries esrEl2 hpfarEl2 farEl2 x s = do
      let (_, s) ← expectMmio (← handleMmioWrite (faultAddress hpfarEl2 farEl2).toNat
        (accessWidth esrEl2) (lowBits (accessWidth esrEl2)
          (saveRegisters x (registerNumber esrEl2))) s entries)
      pure (x, s)
  gicdPriority : ∀ (σ : Type) (v : Fat32) (pages : Pages σ) (vm : VM) (s s' : Devices σ)
    (x' : Fin 31 → BitVec 64) (n : ℕ), n < 1020 → accessWidth esrEl2 = 8 →
    (faultAddress hpfarEl2 farEl2).toNat = 0x8000000 + (gicdIpriorityr0 + n) →
    guestAccess (mmioHandlers v pages vm) esrEl2 hpfarEl2 farEl2 x s = .ok (x', s') →
    ∀ m, s'.gicDistributorMmio.getPriority m = if m = n then
      .ok ((saveRegisters x (registerNumber esrEl2)).setWidth 32 &&& 0xFF#32)
    else s.gicDistributorMmio.getPriority m
  gicrPriority : ∀ (σ : Type) (v : Fat32) (pages : Pages σ) (vm : VM) (s s' : Devices σ)
    (x' : Fin 31 → BitVec 64) (n : ℕ), n < 32 → accessWidth esrEl2 = 8 →
    (faultAddress hpfarEl2 farEl2).toNat = 0x80a0000 + (gicrIpriorityr0 + n) →
    guestAccess (mmioHandlers v pages vm) esrEl2 hpfarEl2 farEl2 x s = .ok (x', s') →
    ∀ m, s'.gicRedistributorMmio.getPriority m = if m = n then
      .ok ((saveRegisters x (registerNumber esrEl2)).setWidth 32 &&& 0xFF#32)
    else s.gicRedistributorMmio.getPriority m

/-- A load of the guest is done right : one register changes, to the lowest bits of what the device
returns. Of `GICR_TYPER`, a load of 32 bits is a value of 32 bits. -/
structure LoadsRight {σ : Type} (v : Fat32) (pages : Pages σ) (vm : VM)
    (esrEl2 hpfarEl2 farEl2 : BitVec 64) (x : Fin 31 → BitVec 64) (s : Devices σ) : Prop where
  result : guestAccess (mmioHandlers v pages vm) esrEl2 hpfarEl2 farEl2 x s = do
    let (value, s) ← expectMmio (← handleMmioRead (faultAddress hpfarEl2 farEl2).toNat
      (accessWidth esrEl2) s (mmioHandlers v pages vm))
    pure (setRegister x (registerNumber esrEl2) (lowBits (accessWidth esrEl2) value), s)
  gicrTyper : accessWidth esrEl2 = 32 →
    (faultAddress hpfarEl2 farEl2).toNat = 0x80a0000 + gicrTyper →
    ∀ x' s', guestAccess (mmioHandlers v pages vm) esrEl2 hpfarEl2 farEl2 x s = .ok (x', s') →
      (saveRegisters x' (registerNumber esrEl2)).toNat < 2 ^ 32

/-- What the devices return for a load fits its width : a register of the UART or of the block
device is small enough, and the CPU of the redistributor has affinity 0 if `GICR_TYPER` is read with
32 bits. -/
structure Devices.LoadFits {σ : Type} (s : Devices σ) (address w : ℕ) : Prop where
  pl011 : 0x9000000 ≤ address → address < 0x9001000 →
    (s.pl011Mmio.read (address - 0x9000000)).1.toNat < 2 ^ w
  virtioBlk : 0xa000000 ≤ address → address < 0xa000200 → ∀ value,
    s.virtioBlkMmio.read (address - 0xa000000) = .ok value → value % 2 ^ 64 < 2 ^ w
  gicRedistributor : address = 0x80a0000 + gicrTyper → w = 32 →
    sameAffinity s.gicRedistributorMmio.affinity 0#64

section Registers

variable {x : Fin 31 → BitVec 64} {n : Fin 32} {a b : BitVec 64}

@[simp] theorem restore_save : restoreRegisters (saveRegisters x) = x := by
  funext i
  simp [restoreRegisters, saveRegisters]

theorem restore_update : restoreRegisters (Function.update (saveRegisters x) n a) = setRegister x n a := by
  funext i
  rw [restoreRegisters, setRegister, Function.update_apply]
  split_ifs
  · rfl
  · simp [saveRegisters]

/-- A register has one value. -/
theorem setRegister_eq_iff : setRegister x n a = setRegister x n b ↔ n.val = 31 ∨ a = b := by
  constructor
  · intro h
    by_cases hn : n.val = 31
    · exact .inl hn
    · have hi := congrFun h ⟨n.val, by omega⟩
      have hcast : (⟨n.val, by omega⟩ : Fin 31).castSucc = n := rfl
      rw [setRegister, setRegister, if_pos hcast, if_pos hcast] at hi
      exact .inr hi
  · rintro (hn | rfl)
    · funext i
      have hne : i.castSucc ≠ n := fun h => by
        have := congrArg Fin.val h
        simp only [Fin.val_castSucc] at this
        omega
      rw [setRegister, setRegister, if_neg hne, if_neg hne]
    · rfl

end Registers

theorem getLsbD_lowBits (w : ℕ) (v : BitVec 64) (i : ℕ) :
    (lowBits w v).getLsbD i = (v.getLsbD i && decide (i < w)) := by
  rw [lowBits, BitVec.getLsbD_setWidth, BitVec.getLsbD_setWidth]
  by_cases hi : i < 64
  · simp [hi, Bool.and_comm]
  · simp [hi, BitVec.getLsbD_of_ge v i (by omega)]

theorem toNat_lowBits_lt (w : ℕ) (v : BitVec 64) : (lowBits w v).toNat < 2 ^ w := by
  rw [lowBits, BitVec.toNat_setWidth, BitVec.toNat_setWidth]
  exact (Nat.mod_le _ _).trans_lt (Nat.mod_lt _ (Nat.two_pow_pos w))

theorem lowBits_eq_iff (w : ℕ) (v : BitVec 64) : lowBits w v = v ↔ v.toNat < 2 ^ w := by
  constructor
  · intro h
    rw [← h]
    exact toNat_lowBits_lt w v
  · intro h
    apply BitVec.eq_of_toNat_eq
    rw [lowBits, BitVec.toNat_setWidth, BitVec.toNat_setWidth, Nat.mod_eq_of_lt h,
      Nat.mod_eq_of_lt v.isLt]

/-! ## Stores -/

section Traps

variable {σ : Type} {entries : List (MmioEntry σ)} {esrEl2 hpfarEl2 farEl2 : BitVec 64}
  {x : Fin 31 → BitVec 64} {s : σ}

/-- What the handler passes to the device. -/
def passedValue (esrEl2 r : BitVec 64) : BitVec 64 :=
  if esrEl2 &&& esrEl2IssSf ≠ 0#64 then r else r &&& 0xffffffff#64

theorem guestAccess_store (hisv : esrEl2 &&& esrEl2IssIsv ≠ 0#64)
    (hwnr : esrEl2 &&& esrEl2IssWnr ≠ 0#64) :
    guestAccess entries esrEl2 hpfarEl2 farEl2 x s = (do
      let (_, s) ← expectMmio (← handleMmioWrite (faultAddress hpfarEl2 farEl2).toNat
        (accessWidth esrEl2) (passedValue esrEl2 (saveRegisters x (registerNumber esrEl2))) s entries)
      pure (x, s)) := by
  unfold guestAccess dataAbortHandler
  rw [if_neg hisv]
  dsimp only
  rw [if_pos hwnr, ← passedValue]
  cases handleMmioWrite (faultAddress hpfarEl2 farEl2).toNat (accessWidth esrEl2)
      (passedValue esrEl2 (saveRegisters x (registerNumber esrEl2))) s entries with
  | error t => rfl
  | ok r =>
    obtain ⟨o | o, s'⟩ := r
    · rfl
    · simp [expectMmio]

theorem guestAccess_load (hisv : esrEl2 &&& esrEl2IssIsv ≠ 0#64)
    (hwnr : ¬esrEl2 &&& esrEl2IssWnr ≠ 0#64) :
    guestAccess entries esrEl2 hpfarEl2 farEl2 x s = (do
      let (value, s) ← expectMmio (← handleMmioRead (faultAddress hpfarEl2 farEl2).toNat
        (accessWidth esrEl2) s entries)
      pure (setRegister x (registerNumber esrEl2) value, s)) := by
  unfold guestAccess dataAbortHandler
  rw [if_neg hisv]
  dsimp only
  rw [if_neg hwnr]
  cases handleMmioRead (faultAddress hpfarEl2 farEl2).toNat (accessWidth esrEl2) s entries with
  | error t => rfl
  | ok r =>
    obtain ⟨o | value, s'⟩ := r
    · rfl
    · simp [expectMmio, restore_update]

/-- The address of an access is one of a page with a number of 40 bits. -/
theorem toNat_faultAddress_lt : (faultAddress hpfarEl2 farEl2).toNat < 2 ^ 63 := by
  have hmsb : (faultAddress hpfarEl2 farEl2).msb = false := by
    have hfipa : hpfarEl2Fipa[55] = false := by decide
    rw [BitVec.msb_eq_getLsbD_last, faultAddress, BitVec.getLsbD_or, BitVec.getLsbD_and (x := farEl2),
      getLsbD_lowMask (by decide), BitVec.getLsbD_shiftLeft, BitVec.getLsbD_ushiftRight,
      BitVec.getLsbD_and]
    simp [pageShift, hpfarEl2FipaBitsOffset, hfipa]
  have := BitVec.msb_eq_false_iff_two_mul_lt.mp hmsb
  omega

/-- The lowest bits are passed if there are no others below the width of the register. -/
theorem passedValue_eq_iff (hsf : accessWidth esrEl2 = 64 → esrEl2 &&& esrEl2IssSf ≠ 0#64)
    (r : BitVec 64) : passedValue esrEl2 r = lowBits (accessWidth esrEl2) r ↔
      ∀ i, accessWidth esrEl2 ≤ i → i < registerWidth esrEl2 → r.getLsbD i = false := by
  have hle : accessWidth esrEl2 ≤ registerWidth esrEl2 := by
    have hwidth : accessWidth esrEl2 ≤ 32 ∨ accessWidth esrEl2 = 64 := by
      unfold accessWidth
      split <;> simp
    unfold registerWidth
    split_ifs with h
    · omega
    · exact hwidth.resolve_right fun h64 => h (hsf h64)
  have hbit : ∀ i, (passedValue esrEl2 r).getLsbD i =
      (r.getLsbD i && decide (i < registerWidth esrEl2)) := by
    intro i
    unfold passedValue registerWidth
    split_ifs
    · by_cases hi : i < 64
      · simp [hi]
      · simp [BitVec.getLsbD_of_ge r i (not_lt.mp hi)]
    · rw [BitVec.getLsbD_and, show 0xffffffff#64 = (1#64 <<< 32) - 1#64 by decide,
        getLsbD_lowMask (by decide)]
  constructor
  · intro h i hlo hhi
    have hi := congrArg (BitVec.getLsbD · i) h
    simp only [hbit, getLsbD_lowBits, decide_eq_true hhi, decide_eq_false (not_lt.mpr hlo),
      Bool.and_true, Bool.and_false] at hi
    exact hi
  · intro h
    refine BitVec.eq_of_getLsbD_eq fun i _ => ?_
    rw [hbit, getLsbD_lowBits]
    by_cases hlo : i < accessWidth esrEl2
    · rw [decide_eq_true hlo, decide_eq_true (hlo.trans_le hle)]
    · rw [decide_eq_false hlo, Bool.and_false]
      by_cases hhi : i < registerWidth esrEl2
      · rw [h i (not_lt.mp hlo) hhi, Bool.false_and]
      · rw [decide_eq_false hhi, Bool.and_false]

/-- The handler passes the lowest bits to every device, or to none. -/
theorem passes_iff (hisv : esrEl2 &&& esrEl2IssIsv ≠ 0#64) (hwnr : esrEl2 &&& esrEl2IssWnr ≠ 0#64) :
    (∀ (σ : Type) (entries : List (MmioEntry σ)) (s : σ),
      guestAccess entries esrEl2 hpfarEl2 farEl2 x s = do
        let (_, s) ← expectMmio (← handleMmioWrite (faultAddress hpfarEl2 farEl2).toNat
          (accessWidth esrEl2) (lowBits (accessWidth esrEl2)
            (saveRegisters x (registerNumber esrEl2))) s entries)
        pure (x, s)) ↔
      passedValue esrEl2 (saveRegisters x (registerNumber esrEl2)) =
        lowBits (accessWidth esrEl2) (saveRegisters x (registerNumber esrEl2)) := by
  constructor
  · intro h
    -- A device that keeps what it is given.
    let entry : MmioEntry (BitVec 64) := ⟨0, 2 ^ 63, fun _ _ s => .ok (.ok 0#64, s),
      fun _ _ value _ => .ok (.ok (), value)⟩
    have hdevice : ∀ w value, handleMmioWrite (faultAddress hpfarEl2 farEl2).toNat w value 0#64 [entry] =
        .ok (.ok (), value) := by
      intro w value
      have hstop : checkedAdd 64 entry.baseAddress entry.length = .ok (2 ^ 63) := by decide
      rw [handleMmioWrite, if_pos (Nat.zero_le _), hstop, Exec.ok_bind,
        if_pos toNat_faultAddress_lt]
    have hrun := h _ [entry] 0#64
    rw [guestAccess_store hisv hwnr, hdevice, hdevice] at hrun
    exact congrArg Prod.snd (Except.ok.inj hrun)
  · intro h σ entries s
    rw [guestAccess_store hisv hwnr, h]

end Traps

/-! ## Devices -/

section Dispatch

variable {σ : Type} {e : MmioEntry σ} {entries : List (MmioEntry σ)} {address w : ℕ}
  {value : BitVec 64} {s : σ}

theorem handleMmioRead_cons (h : e.baseAddress + e.length < 2 ^ 64) :
    handleMmioRead address w s (e :: entries) =
      if e.baseAddress ≤ address ∧ address < e.baseAddress + e.length then
        e.read (address - e.baseAddress) w s
      else handleMmioRead address w s entries := by
  rw [handleMmioRead, checkedAdd_of_lt h, Exec.ok_bind]
  split_ifs <;> first | rfl | omega

theorem handleMmioWrite_cons (h : e.baseAddress + e.length < 2 ^ 64) :
    handleMmioWrite address w value s (e :: entries) =
      if e.baseAddress ≤ address ∧ address < e.baseAddress + e.length then
        e.write (address - e.baseAddress) w value s
      else handleMmioWrite address w value s entries := by
  rw [handleMmioWrite, checkedAdd_of_lt h, Exec.ok_bind]
  split_ifs <;> first | rfl | omega

variable {v : Fat32} {pages : Pages σ} {vm : VM} {s : Devices σ}

theorem pl011Entry_range : (pl011Entry : MmioEntry (Devices σ)).baseAddress = 0x9000000 ∧
    (pl011Entry : MmioEntry (Devices σ)).length = 0x1000 :=
  ⟨rfl, rfl⟩

theorem virtioBlkEntry_range : (virtioBlkEntry v pages vm).baseAddress = 0xa000000 ∧
    (virtioBlkEntry v pages vm).length = 0x200 :=
  ⟨rfl, rfl⟩

theorem gicDistributorEntry_range :
    (gicDistributorEntry : MmioEntry (Devices σ)).baseAddress = 0x8000000 ∧
      (gicDistributorEntry : MmioEntry (Devices σ)).length = 0x10000 :=
  ⟨rfl, rfl⟩

theorem gicRedistributorEntry_range :
    (gicRedistributorEntry : MmioEntry (Devices σ)).baseAddress = 0x80a0000 ∧
      (gicRedistributorEntry : MmioEntry (Devices σ)).length = 0x20000 :=
  ⟨rfl, rfl⟩

theorem handleMmioRead_mmioHandlers : handleMmioRead address w s (mmioHandlers v pages vm) =
    if 0x9000000 ≤ address ∧ address < 0x9001000 then pl011Entry.read (address - 0x9000000) w s
    else if 0xa000000 ≤ address ∧ address < 0xa000200 then
      (virtioBlkEntry v pages vm).read (address - 0xa000000) w s
    else if 0x8000000 ≤ address ∧ address < 0x8010000 then
      gicDistributorEntry.read (address - 0x8000000) w s
    else if 0x80a0000 ≤ address ∧ address < 0x80c0000 then
      gicRedistributorEntry.read (address - 0x80a0000) w s
    else .ok (.error (), s) := by
  rw [mmioHandlers, handleMmioRead_cons (show 0x9000000 + 0x1000 < 2 ^ 64 by decide),
    handleMmioRead_cons (show 0xa000000 + 0x0200 < 2 ^ 64 by decide),
    handleMmioRead_cons (show 0x8000000 + 0x10000 < 2 ^ 64 by decide),
    handleMmioRead_cons (show 0x80a0000 + 0x20000 < 2 ^ 64 by decide), handleMmioRead]
  simp only [pl011Entry_range, virtioBlkEntry_range, gicDistributorEntry_range,
    gicRedistributorEntry_range, Nat.reduceAdd]

theorem handleMmioWrite_mmioHandlers :
    handleMmioWrite address w value s (mmioHandlers v pages vm) =
      if 0x9000000 ≤ address ∧ address < 0x9001000 then
        pl011Entry.write (address - 0x9000000) w value s
      else if 0xa000000 ≤ address ∧ address < 0xa000200 then
        (virtioBlkEntry v pages vm).write (address - 0xa000000) w value s
      else if 0x8000000 ≤ address ∧ address < 0x8010000 then
        gicDistributorEntry.write (address - 0x8000000) w value s
      else if 0x80a0000 ≤ address ∧ address < 0x80c0000 then
        gicRedistributorEntry.write (address - 0x80a0000) w value s
      else .ok (.error (), s) := by
  rw [mmioHandlers, handleMmioWrite_cons (show 0x9000000 + 0x1000 < 2 ^ 64 by decide),
    handleMmioWrite_cons (show 0xa000000 + 0x0200 < 2 ^ 64 by decide),
    handleMmioWrite_cons (show 0x8000000 + 0x10000 < 2 ^ 64 by decide),
    handleMmioWrite_cons (show 0x80a0000 + 0x20000 < 2 ^ 64 by decide), handleMmioWrite]
  simp only [pl011Entry_range, virtioBlkEntry_range, gicDistributorEntry_range,
    gicRedistributorEntry_range, Nat.reduceAdd]

end Dispatch

section Priorities

variable {ρ : Type} {registers registers' : ρ → ℕ → BitVec 64} {r : ρ} {N n : ℕ}
  {bank bank' : Bank N 32} {v : BitVec 64}

/-- The priorities after a byte was stored. -/
theorem field_of_stores (hold : ∀ i, registers r i = (bank.reg i).setWidth 64)
    (hnew : ∀ i, registers' r i = (bank'.reg i).setWidth 64) (hn : n / 4 < N)
    (h : Stores registers registers' ⟨r, n / 4, some (Fin.ofNat 4 n)⟩ v) (m : ℕ) :
    GicDistributorMmio.field bank' 8 0xFF#32 m =
      if m = n then .ok (v.setWidth 32) else GicDistributorMmio.field bank 8 0xFF#32 m := by
  have hbyte : ((bank'.reg (m / 4) >>> (m % 4 * 8)) &&& 0xFF#32).setWidth 64 =
      RegisterPart.value registers' ⟨r, m / 4, some (Fin.ofNat 4 m)⟩ := by
    rw [← byte_setWidth, ← hnew]
    rfl
  unfold GicDistributorMmio.field
  by_cases hm : m / 4 < N
  · rw [show m / (32 / 8) = m / 4 by omega, show m % (32 / 8) * 8 = m % 4 * 8 by omega,
      Bank.get_of_lt hm, Bank.get_of_lt hm]
    split_ifs with hmn
    · subst hmn
      rw [h.1] at hbyte
      have := congrArg (BitVec.setWidth 32) hbyte
      rw [GicDistributorMmio.setWidth_setWidth_32] at this
      exact congrArg Except.ok this
    · have hapart : RegisterPart.Apart ⟨r, m / 4, some (Fin.ofNat 4 m)⟩
          ⟨r, n / 4, some (Fin.ofNat 4 n)⟩ := by
        by_cases hreg : m / 4 = n / 4
        · refine .inr ⟨_, _, rfl, rfl, fun hc => hmn ?_⟩
          have := congrArg Fin.val hc
          simp only [Fin.val_ofNat] at this
          omega
        · exact .inl fun hc => hreg hc.2
      rw [h.2 _ hapart] at hbyte
      have hbyte' : RegisterPart.value registers ⟨r, m / 4, some (Fin.ofNat 4 m)⟩ =
          ((bank.reg (m / 4) >>> (m % 4 * 8)) &&& 0xFF#32).setWidth 64 := by
        rw [← byte_setWidth, ← hold]
        rfl
      exact congrArg Except.ok ((setWidth_eq_iff (by decide)).mp (hbyte.trans hbyte'))
  · rw [show m / (32 / 8) = m / 4 by omega, Bank.get_of_le (not_lt.mp hm), Bank.get_of_le (not_lt.mp hm),
      if_neg (by omega)]

end Priorities

/-- A byte of a register, as 32 bits. -/
theorem setWidth_lowBits (v : BitVec 64) : (lowBits 8 v).setWidth 32 = v.setWidth 32 &&& 0xFF#32 := by
  refine BitVec.eq_of_getLsbD_eq fun i hi => ?_
  rw [BitVec.getLsbD_setWidth, getLsbD_lowBits, BitVec.getLsbD_and, BitVec.getLsbD_setWidth,
    show 0xFF#32 = (1#32 <<< 8) - 1#32 by decide, getLsbD_lowMask (by decide), Bool.and_assoc]

section Consequences

variable {σ : Type} {v : Fat32} {pages : Pages σ} {vm : VM} {esrEl2 hpfarEl2 farEl2 : BitVec 64}
  {x x' : Fin 31 → BitVec 64} {s s' : Devices σ} {n : ℕ} {value : BitVec 64}

/-- A store to a byte of `GICD_IPRIORITYR`. -/
theorem gicdPriority_of_write (hn : n < 1020) (hv : value.toNat < 2 ^ 8) {r : Except Unit Unit}
    (h : handleMmioWrite (0x8000000 + (gicdIpriorityr0 + n)) 8 value s (mmioHandlers v pages vm) =
      .ok (r, s')) (m : ℕ) :
    s'.gicDistributorMmio.getPriority m = if m = n then .ok (value.setWidth 32)
      else s.gicDistributorMmio.getPriority m := by
  have hlo : gicdIpriorityr0 = 0x400 := rfl
  rw [handleMmioWrite_mmioHandlers, if_neg (by omega), if_neg (by omega), if_pos (by omega),
    Nat.add_sub_cancel_left] at h
  obtain ⟨⟨d', cpu'⟩, hrun, h⟩ := Exec.bind_eq_ok.mp h
  obtain ⟨-, rfl⟩ := Prod.mk.inj (Except.ok.inj h)
  have hwrote := GicDistributorMmio.write_wroteTo hv hrun
  rw [GicDistributorMmio.part_priority hn, GicDistributorMmio.WroteTo,
    GicDistributorMmio.written_plain (.inr (Nat.lt_add_right n (by decide)))] at hwrote
  exact field_of_stores (fun _ => rfl) (fun _ => rfl) (by omega) hwrote m

/-- A store to a byte of `GICR_IPRIORITYR`. -/
theorem gicrPriority_of_write (hn : n < 32) (hv : value.toNat < 2 ^ 8) {r : Except Unit Unit}
    (h : handleMmioWrite (0x80a0000 + (gicrIpriorityr0 + n)) 8 value s (mmioHandlers v pages vm) =
      .ok (r, s')) (m : ℕ) :
    s'.gicRedistributorMmio.getPriority m = if m = n then .ok (value.setWidth 32)
      else s.gicRedistributorMmio.getPriority m := by
  have hlo : gicrIpriorityr0 = 0x10400 := rfl
  rw [handleMmioWrite_mmioHandlers, if_neg (by omega), if_neg (by omega), if_neg (by omega),
    if_pos (by omega), Nat.add_sub_cancel_left] at h
  obtain ⟨⟨d', cpu'⟩, hrun, h⟩ := Exec.bind_eq_ok.mp h
  obtain ⟨-, rfl⟩ := Prod.mk.inj (Except.ok.inj h)
  have hwrote := GicRedistributorMmio.write_wroteTo hv hrun
  rw [GicRedistributorMmio.part_priority hn, GicRedistributorMmio.WroteTo,
    GicRedistributorMmio.written_plain (.inr (Nat.lt_add_right n (by decide)))] at hwrote
  exact field_of_stores (fun _ => rfl) (fun _ => rfl) (by omega) hwrote.2 m

/-! ## The result -/

/-- What the devices return for a load fits. -/
theorem handleMmioRead_fits_iff {address w : ℕ} :
    (∀ value s', handleMmioRead address w s (mmioHandlers v pages vm) = .ok (.ok value, s') →
      value.toNat < 2 ^ w) ↔ s.LoadFits address w := by
  have hsize : gicrTyper = 8 := rfl
  have huart : ∀ o, pl011Entry.read o w s = .ok (.ok (s.pl011Mmio.read o).1,
      { s with pl011Mmio := (s.pl011Mmio.read o).2 }) := fun _ => rfl
  have hblock : ∀ o, (virtioBlkEntry v pages vm).read o w s =
      s.virtioBlkMmio.read o >>= fun value => .ok (.ok (BitVec.ofNat 64 value), s) := fun _ => rfl
  have hdist : ∀ o, gicDistributorEntry.read o w s =
      s.gicDistributorMmio.read o w >>= fun value => .ok (.ok value, s) := fun _ => rfl
  have hredist : ∀ o, gicRedistributorEntry.read o w s =
      s.gicRedistributorMmio.read o w >>= fun value => .ok (.ok value, s) := fun _ => rfl
  rw [handleMmioRead_mmioHandlers]
  by_cases hpl : 0x9000000 ≤ address ∧ address < 0x9001000
  · rw [if_pos hpl, huart]
    refine ⟨fun h => ⟨fun _ _ => h _ _ rfl, by omega, by omega⟩, fun h value s' hread => ?_⟩
    obtain ⟨hvalue, -⟩ := Prod.mk.inj (Except.ok.inj hread)
    rw [← Except.ok.inj hvalue]
    exact h.pl011 hpl.1 hpl.2
  rw [if_neg hpl]
  by_cases hblk : 0xa000000 ≤ address ∧ address < 0xa000200
  · rw [if_pos hblk, hblock]
    refine ⟨fun h => ⟨by omega, fun _ _ value hread => ?_, by omega⟩, fun h value s' hread => ?_⟩
    · have := h (BitVec.ofNat 64 value) s (by rw [hread, Exec.ok_bind])
      rwa [BitVec.toNat_ofNat] at this
    · obtain ⟨value', hread', h'⟩ := Exec.bind_eq_ok.mp hread
      obtain ⟨hvalue, -⟩ := Prod.mk.inj (Except.ok.inj h')
      rw [← Except.ok.inj hvalue, BitVec.toNat_ofNat]
      exact h.virtioBlk hblk.1 hblk.2 value' hread'
  rw [if_neg hblk]
  by_cases hgicd : 0x8000000 ≤ address ∧ address < 0x8010000
  · rw [if_pos hgicd, hdist]
    refine iff_of_true (fun value s' hread => ?_) ⟨by omega, by omega, by omega⟩
    obtain ⟨value', hread', h'⟩ := Exec.bind_eq_ok.mp hread
    obtain ⟨hvalue, -⟩ := Prod.mk.inj (Except.ok.inj h')
    rw [← Except.ok.inj hvalue]
    exact GicDistributorMmio.read_fits hread'
  rw [if_neg hgicd]
  by_cases hgicr : 0x80a0000 ≤ address ∧ address < 0x80c0000
  · rw [if_pos hgicr, hredist]
    have hiff := @GicRedistributorMmio.read_fits_iff s.gicRedistributorMmio (address - 0x80a0000) w
    constructor
    · intro h
      refine ⟨by omega, by omega, fun haddress hw => ?_⟩
      refine hiff.mp (fun value hread => h value s ?_) (by omega) hw
      rw [hread, Exec.ok_bind]
    · intro h value s' hread
      obtain ⟨value', hread', h'⟩ := Exec.bind_eq_ok.mp hread
      obtain ⟨hvalue, -⟩ := Prod.mk.inj (Except.ok.inj h')
      rw [← Except.ok.inj hvalue]
      exact hiff.mpr (fun ho hw => h.gicRedistributor (by omega) hw) value' hread'
  · rw [if_neg hgicr]
    refine iff_of_true (fun value s' hread => ?_) ⟨by omega, by omega, by omega⟩
    cases (Prod.mk.inj (Except.ok.inj hread)).1

/-- A trap that returns passed the value to a device. -/
theorem handleMmioWrite_of_guestAccess {entries : List (MmioEntry σ)} {a a' : σ} {r : BitVec 64}
    (hpass : guestAccess entries esrEl2 hpfarEl2 farEl2 x a = do
      let (_, a) ← expectMmio (← handleMmioWrite (faultAddress hpfarEl2 farEl2).toNat
        (accessWidth esrEl2) (lowBits (accessWidth esrEl2) r) a entries)
      pure (x, a))
    (h : guestAccess entries esrEl2 hpfarEl2 farEl2 x a = .ok (x', a')) :
    handleMmioWrite (faultAddress hpfarEl2 farEl2).toNat (accessWidth esrEl2)
      (lowBits (accessWidth esrEl2) r) a entries = .ok (.ok (), a') := by
  rw [hpass] at h
  obtain ⟨⟨o | u, a''⟩, hrun, h⟩ := Exec.bind_eq_ok.mp h
  · cases h
  · obtain ⟨-, rfl⟩ := Prod.mk.inj (Except.ok.inj h)
    exact hrun

/-- A store is done right if the register has no bits above the width of the access. -/
theorem storesRight_iff (hisv : esrEl2 &&& esrEl2IssIsv ≠ 0#64)
    (hsf : accessWidth esrEl2 = 64 → esrEl2 &&& esrEl2IssSf ≠ 0#64)
    (hwnr : esrEl2 &&& esrEl2IssWnr ≠ 0#64) :
    StoresRight esrEl2 hpfarEl2 farEl2 x ↔ ∀ i, accessWidth esrEl2 ≤ i → i < registerWidth esrEl2 →
      (saveRegisters x (registerNumber esrEl2)).getLsbD i = false := by
  rw [← passedValue_eq_iff hsf, ← passes_iff hisv hwnr]
  refine ⟨StoresRight.passes, fun h => ⟨h, ?_, ?_⟩⟩
  · intro σ v pages vm s s' x' n hn hw haddress hrun m
    have hwrite := handleMmioWrite_of_guestAccess (h _ _ s) hrun
    rw [haddress, hw] at hwrite
    rw [gicdPriority_of_write hn (toNat_lowBits_lt 8 _) hwrite, setWidth_lowBits]
  · intro σ v pages vm s s' x' n hn hw haddress hrun m
    have hwrite := handleMmioWrite_of_guestAccess (h _ _ s) hrun
    rw [haddress, hw] at hwrite
    rw [gicrPriority_of_write hn (toNat_lowBits_lt 8 _) hwrite, setWidth_lowBits]

/-- A load is done right if what the device returns fits the width of the access. -/
theorem loadsRight_iff (hisv : esrEl2 &&& esrEl2IssIsv ≠ 0#64)
    (hwnr : ¬esrEl2 &&& esrEl2IssWnr ≠ 0#64) :
    LoadsRight v pages vm esrEl2 hpfarEl2 farEl2 x s ↔ (registerNumber esrEl2).val = 31 ∨
      s.LoadFits (faultAddress hpfarEl2 farEl2).toNat (accessWidth esrEl2) := by
  have hresult : guestAccess (mmioHandlers v pages vm) esrEl2 hpfarEl2 farEl2 x s = (do
      let (value, s) ← expectMmio (← handleMmioRead (faultAddress hpfarEl2 farEl2).toNat
        (accessWidth esrEl2) s (mmioHandlers v pages vm))
      pure (setRegister x (registerNumber esrEl2) (lowBits (accessWidth esrEl2) value), s)) ↔
      (registerNumber esrEl2).val = 31 ∨
        s.LoadFits (faultAddress hpfarEl2 farEl2).toNat (accessWidth esrEl2) := by
    rw [guestAccess_load hisv hwnr, ← handleMmioRead_fits_iff (v := v)]
    rcases handleMmioRead (faultAddress hpfarEl2 farEl2).toNat (accessWidth esrEl2) s
      (mmioHandlers v pages vm) with t | ⟨o | value, s'⟩
    · exact iff_of_true rfl (.inr nofun)
    · exact iff_of_true rfl (.inr nofun)
    · simp only [expectMmio, Exec.ok_bind, Exec.pure_eq_ok, Except.ok.injEq, Prod.mk.injEq, and_true,
        setRegister_eq_iff]
      rw [eq_comm (b := lowBits _ _), lowBits_eq_iff]
      refine or_congr_right ⟨fun h => ?_, fun h => h value s' ⟨rfl, rfl⟩⟩
      rintro _ _ ⟨rfl, rfl⟩
      exact h
  rw [← hresult]
  refine ⟨LoadsRight.result, fun h => ⟨h, fun hw _ x' s' hrun => ?_⟩⟩
  rw [h, hw] at hrun
  obtain ⟨r, -, hrun⟩ := Exec.bind_eq_ok.mp hrun
  obtain ⟨⟨value, s''⟩, -, hrun⟩ := Exec.bind_eq_ok.mp hrun
  obtain ⟨rfl, -⟩ := Prod.mk.inj (Except.ok.inj hrun)
  by_cases h31 : (registerNumber esrEl2).val < 31
  · have hcast : (⟨_, h31⟩ : Fin 31).castSucc = registerNumber esrEl2 := rfl
    rw [saveRegisters, dif_pos h31, setRegister, if_pos hcast]
    exact toNat_lowBits_lt 32 value
  · rw [saveRegisters, dif_neg h31]
    decide

end Consequences

/-- A trapped access of the guest is done right exactly if nothing had to be cut off : for a store,
the register has no bits above the width of the access, up to the width that is passed; for a load,
what the device returns fits, unless the register is the zero register. Of the accesses of 64 bits,
hardware reports those with `SF` only. -/
theorem guestAccess_iff {σ : Type} (v : Fat32) (pages : Pages σ) (vm : VM)
    (esrEl2 hpfarEl2 farEl2 : BitVec 64) (x : Fin 31 → BitVec 64) (s : Devices σ)
    (hisv : esrEl2 &&& esrEl2IssIsv ≠ 0#64)
    (hsf : accessWidth esrEl2 = 64 → esrEl2 &&& esrEl2IssSf ≠ 0#64) :
    (esrEl2 &&& esrEl2IssWnr ≠ 0#64 → (StoresRight esrEl2 hpfarEl2 farEl2 x ↔
      ∀ i, accessWidth esrEl2 ≤ i → i < registerWidth esrEl2 →
        (saveRegisters x (registerNumber esrEl2)).getLsbD i = false)) ∧
    (¬esrEl2 &&& esrEl2IssWnr ≠ 0#64 → (LoadsRight v pages vm esrEl2 hpfarEl2 farEl2 x s ↔
      (registerNumber esrEl2).val = 31 ∨
        s.LoadFits (faultAddress hpfarEl2 farEl2).toNat (accessWidth esrEl2))) :=
  ⟨storesRight_iff hisv hsf, loadsRight_iff hisv⟩

/-- The devices of a VM on the CPU with affinity `mpidrEl1`. -/
def bootDevices (mpidrEl1 : BitVec 64) : Devices Unit where
  pl011Mmio := .new
  virtioBlkMmio := ⟨⟨2, 512⟩, 0, 0, 0, false, 4096, 0, 0, 0, 0, 0⟩
  gicDistributorMmio := .new
  gicRedistributorMmio := .new mpidrEl1
  cpu := ⟨mpidrEl1, 0, fun _ => 0#64, []⟩
  env := ⟨⟨⟨fun _ => 0#8, []⟩, fun _ => 0#8, ()⟩, [], []⟩
  printed := []

/-- `STRB W0` to `UART_DR`, and `LDRB W0` from `UART_FR`. -/
theorem guestAccess_iff_uart :
    StoresRight 0x1000040#64 0x90000#64 0#64 (fun _ => 0x41#64) ∧
    LoadsRight ⟨0, 512, 512, 1, 1, 1, 1, fun _ => 0⟩ ⟨fun _ _ s => (none, s), fun _ _ s => s⟩
      ⟨0x40000000, 0x80000000, 0x10000000⟩ 0x1000000#64 0x90000#64 0x18#64 (fun _ => 0x41#64)
      (bootDevices 0) := by
  constructor
  · have hstore := (guestAccess_iff ⟨0, 512, 512, 1, 1, 1, 1, fun _ => 0⟩
      ⟨fun _ _ s => (none, s), fun _ _ s => s⟩ ⟨0x40000000, 0x80000000, 0x10000000⟩ 0x1000040#64
      0x90000#64 0#64 (fun _ => 0x41#64) (bootDevices 0) (by decide) (by decide)).1 (by decide)
    refine hstore.mpr fun i hlo hhi => ?_
    have hlo : 8 ≤ i := hlo
    have hhi : i < 32 := hhi
    interval_cases i <;> rfl
  · have hload := (guestAccess_iff ⟨0, 512, 512, 1, 1, 1, 1, fun _ => 0⟩
      ⟨fun _ _ s => (none, s), fun _ _ s => s⟩ ⟨0x40000000, 0x80000000, 0x10000000⟩ 0x1000000#64
      0x90000#64 0x18#64 (fun _ => 0x41#64) (bootDevices 0) (by decide) (by decide)).2 (by decide)
    have haddress : (faultAddress 0x90000#64 0x18#64).toNat = 0x9000018 := by decide
    refine hload.mpr (.inr ?_)
    rw [haddress]
    exact ⟨fun _ _ => by decide, fun h => absurd h (by decide), by decide⟩

/-- `STRB W0` to the priority of INTID 32 with `X0 = 0x1a0`, and `LDR W0` from `GICR_TYPER` on the CPU with
affinity 1. -/
theorem not_storesRight_not_loadsRight :
    ¬StoresRight 0x1000040#64 0x80000#64 0x420#64 (fun _ => 0x1a0#64) ∧
    ¬LoadsRight ⟨0, 512, 512, 1, 1, 1, 1, fun _ => 0⟩ ⟨fun _ _ s => (none, s), fun _ _ s => s⟩
      ⟨0x40000000, 0x80000000, 0x10000000⟩ 0x1800000#64 0x80a00#64 0x8#64 (fun _ => 0#64)
      (bootDevices 1) := by
  constructor
  · intro h
    have hbit := (storesRight_iff (by decide) (by decide) (by decide)).mp h 8 (by decide) (by decide)
    exact absurd hbit (by decide)
  · intro h
    have haddress : (faultAddress 0x80a00#64 0x8#64).toNat = 0x80a0008 := by decide
    rcases (loadsRight_iff (by decide) (by decide)).mp h with h31 | hfits
    · exact absurd h31 (by decide)
    · rw [haddress] at hfits
      exact absurd (hfits.gicRedistributor rfl rfl) (by decide)

end MiniVisor
