import MiniVisor.Aarch64
import MiniVisor.Exception
import MiniVisor.Transition

/-!
# Entering and leaving the hypervisor

The code of the exception table pushes the registers of the guest, calls a handler with the address
of the frame, and pops what the handler has left there. `synchronous_handler` changes the frame
through its pointer, and `irq_handler` does not.

`trapRun_refines` says that this code does what `guestAccess` says, in every run of a guest that is
interrupted and traps : a CPU with the frame code is simulated by one whose accesses are single
steps, and each exception gives the whole stack back. -/

namespace MiniVisor

open Machine Relation

/-! ## The exception table -/

inductive ExceptionLevel
  | currentElStackPointer0
  | currentElStackPointerX
  | lowerElAarch64
  | lowerElAarch32

inductive ExceptionKind
  | synchronous
  | irq
  | fiq
  | sError

inductive ExceptionHandler
  | synchronousHandler
  | irqHandler

/-- What the entry calls. The entries without a handler branch to themselves. -/
def exceptionTable : ExceptionLevel → ExceptionKind → Option ExceptionHandler
  | .currentElStackPointerX, .irq => some .irqHandler
  | .lowerElAarch64, .synchronous => some .synchronousHandler
  | .lowerElAarch64, .irq => some .irqHandler
  | _, _ => none

section

-- The registers are numbered with this instance, so that every number has the same one.
local instance neZeroRegisters : NeZero 32 := ⟨by decide⟩

/-- The code of an entry with a handler, up to the branch to it. -/
def exceptionEntry (exitAddress : BitVec 64) : List Instruction :=
  [.subSp 256#64,
    .stp 30 31 240#64, .stp 28 29 224#64, .stp 26 27 208#64, .stp 24 25 192#64,
    .stp 22 23 176#64, .stp 20 21 160#64, .stp 18 19 144#64, .stp 16 17 128#64,
    .stp 14 15 112#64, .stp 12 13 96#64, .stp 10 11 80#64, .stp 8 9 64#64,
    .stp 6 7 48#64, .stp 4 5 32#64, .stp 2 3 16#64, .stp 0 1 0#64,
    .movSp 0, .adr 30 exitAddress]

/-- `exit_exception`, up to the `eret`. -/
def exitException : List Instruction :=
  [.ldp 30 31 240#64, .ldp 28 29 224#64, .ldp 26 27 208#64, .ldp 24 25 192#64,
    .ldp 22 23 176#64, .ldp 20 21 160#64, .ldp 18 19 144#64, .ldp 16 17 128#64,
    .ldp 14 15 112#64, .ldp 12 13 96#64, .ldp 10 11 80#64, .ldp 8 9 64#64,
    .ldp 6 7 48#64, .ldp 4 5 32#64, .ldp 2 3 16#64, .ldp 0 1 0#64,
    .addSp 256#64]

end

theorem exceptionEntry_eq (exitAddress : BitVec 64) :
    exceptionEntry exitAddress = Core.saveFrame ++ [.movSp 0, .adr 30 exitAddress] := rfl

/-! ## Handlers -/

def esrEl2EcBitsOffset : ℕ := 26
def esrEl2Ec : BitVec 64 := 0b111111#64 <<< esrEl2EcBitsOffset
def esrEl2EcDataAbort : BitVec 64 := 0b100100#64 <<< 26

/-- What hardware reports of an exception. -/
structure Syndrome where
  esrEl2 : BitVec 64
  hpfarEl2 : BitVec 64
  farEl2 : BitVec 64

variable {σ : Type} (entries : List (MmioEntry σ)) (irq : σ → Exec σ)

/-- What a handler does to the frame, to `ELR_EL2` and to the devices. `irq` is the body of
`irq_handler`. -/
def ExceptionHandler.exec (e : Syndrome) :
    ExceptionHandler → Registers × BitVec 64 × σ → Exec (Registers × BitVec 64 × σ)
  | .synchronousHandler, (registers, elrEl2, s) =>
    if e.esrEl2 &&& esrEl2Ec = esrEl2EcDataAbort then do
      let (registers, s) ← dataAbortHandler entries e.esrEl2 e.hpfarEl2 e.farEl2 registers s
      let elrEl2 ← checkedAdd 64 elrEl2.toNat 4
      pure (registers, BitVec.ofNat 64 elrEl2, s)
    else .error .assertion
  | .irqHandler, (registers, elrEl2, s) => do
    let s ← irq s
    pure (registers, elrEl2, s)

/-- The frame at `address`. -/
def frameAt (c : Core) (address : BitVec 64) : Registers :=
  fun i => c.word (address + BitVec.ofNat 64 (8 * i))

/-- A handler was called with the address of the frame in `x0` and has returned. Other registers,
and memory outside the frame, are as the compiled code leaves them. -/
structure Called (exec : Registers × BitVec 64 × σ → Exec (Registers × BitVec 64 × σ))
    (x x' : Core × BitVec 64 × σ) : Prop where
  result : exec (frameAt x.1 (x.1.reg 0), x.2) = .ok (frameAt x'.1 (x.1.reg 0), x'.2)
  sp : x'.1.sp = x.1.sp

/-! ## A CPU -/

/-- A CPU that runs a guest : its registers with the stack of the hypervisor, the address of the
next instruction, and the devices. -/
structure TrapCpu (σ : Type) where
  core : Core
  pc : BitVec 64
  devices : σ

/-- What a guest sees of it. -/
structure GuestCpu (σ : Type) where
  x : Fin 31 → BitVec 64
  pc : BitVec 64
  devices : σ

/-- What the guest sees. -/
def TrapCpu.guest (c : TrapCpu σ) : GuestCpu σ :=
  ⟨c.core.x, c.pc, c.devices⟩

variable (exitAddress : BitVec 64) (instruction : GuestCpu σ → GuestCpu σ → Prop)

/-- An instruction of the guest, which cannot change the stack pointer of the hypervisor, or an
exception. -/
inductive TrapStep : TrapCpu σ → TrapCpu σ → Prop
  | instruction {c : TrapCpu σ} {g : GuestCpu σ} (memory : Memory) (h : instruction c.guest g) :
    TrapStep c ⟨⟨g.x, c.core.sp, memory⟩, g.pc, g.devices⟩
  | exception {c : TrapCpu σ} {c₁ c₂ c₃ : Core} {elrEl2 : BitVec 64} {s : σ} {level : ExceptionLevel}
    {kind : ExceptionKind} {handler : ExceptionHandler} (e : Syndrome)
    (htable : exceptionTable level kind = some handler)
    (hentry : c.core.run (exceptionEntry exitAddress) = .ok c₁)
    (hcall : Called (handler.exec entries irq e) (c₁, c.pc, c.devices) (c₂, elrEl2, s))
    (hexit : c₂.run exitException = .ok c₃) : TrapStep c ⟨c₃, elrEl2, s⟩

/-- The CPU that the guest sees : an access is one step, and so is an interrupt. -/
inductive GuestStep : GuestCpu σ → GuestCpu σ → Prop
  | instruction {g g' : GuestCpu σ} (h : instruction g g') : GuestStep g g'
  | access {g : GuestCpu σ} {x : Fin 31 → BitVec 64} {s : σ} (e : Syndrome)
    (hec : e.esrEl2 &&& esrEl2Ec = esrEl2EcDataAbort)
    (haccess : guestAccess entries e.esrEl2 e.hpfarEl2 e.farEl2 g.x g.devices = .ok (x, s)) :
    GuestStep g ⟨x, g.pc + 4#64, s⟩
  | interrupt {g : GuestCpu σ} {s : σ} (h : irq g.devices = .ok s) : GuestStep g ⟨g.x, g.pc, s⟩

/-- The systems, from a CPU whose stack pointer is `spEl2`. -/
def trapSystem (spEl2 : BitVec 64) (g : GuestCpu σ) : System (TrapCpu σ) where
  Init c := c.core.sp = spEl2 ∧ c.guest = g
  Step := TrapStep entries irq exitAddress instruction

def guestSystem (g : GuestCpu σ) : System (GuestCpu σ) where
  Init g' := g' = g
  Step := GuestStep entries irq instruction

/-! ## The frame -/

section Frame

variable {entries irq exitAddress instruction} {c c₁ c₂ : Core}

theorem saveRegisters_eq (c : Core) : saveRegisters c.x = c.reg := rfl

/-- The handler gets the registers of the guest, and `x30` leads to `exit_exception`. -/
theorem run_exceptionEntry (exitAddress : BitVec 64) (hsp : c.sp.toNat % 16 = 0) (h : 256 ≤ c.sp.toNat) :
    ∃ c₁, c.run (exceptionEntry exitAddress) = .ok c₁ ∧ c₁.sp = c.sp - 256#64 ∧ c₁.reg 0 = c₁.sp ∧
      c₁.reg 30 = exitAddress ∧ frameAt c₁ (c₁.reg 0) = saveRegisters c.x := by
  obtain ⟨c', hrun, -, hsp', hwords, -⟩ := Core.run_saveFrame hsp h
  refine ⟨(c'.setReg 0 c'.sp).setReg 30 exitAddress, ?_, hsp', rfl, rfl, ?_⟩
  · rw [exceptionEntry_eq, Core.run_append, hrun]
    rfl
  · rw [saveRegisters_eq]
    funext j
    exact hwords j

theorem run_exitException (hsp : c.sp.toNat % 16 = 0) :
    ∃ c₃, c.run exitException = .ok c₃ ∧ c₃.x = restoreRegisters (frameAt c c.sp) ∧ c₃.sp =
    c.sp + 256#64 := by
  obtain ⟨c₃, hrun, hx, hsp₃, -⟩ := Core.run_restoreFrame hsp
  exact ⟨c₃, hrun, funext hx, hsp₃⟩

/-- A handler between the two. -/
theorem Called.exit {exec : Registers × BitVec 64 × σ → Exec (Registers × BitVec 64 × σ)}
    {pc elrEl2 : BitVec 64}
    {s s' : σ} (hsp : c.sp.toNat % 16 = 0) (h : 256 ≤ c.sp.toNat)
    (hentry : c.run (exceptionEntry exitAddress) = .ok c₁)
    (hcall : Called exec (c₁, pc, s) (c₂, elrEl2, s')) :
    ∃ registers c₃, exec (saveRegisters c.x, pc, s) = .ok (registers, elrEl2, s') ∧
      c₂.run exitException = .ok c₃ ∧ c₃.x = restoreRegisters registers ∧ c₃.sp = c.sp := by
  obtain ⟨c₁', hrun, hsp₁, hx₀, -, hframe⟩ := run_exceptionEntry exitAddress hsp h
  obtain rfl : c₁' = c₁ := Except.ok.inj (hrun.symm.trans hentry)
  obtain ⟨hresult, hsp₂⟩ := hcall
  dsimp only at hresult hsp₂
  have hle : (256#64).toNat ≤ c.sp.toNat := h
  have haligned : c₂.sp.toNat % 16 = 0 := by
    rw [hsp₂, hsp₁, BitVec.toNat_sub_of_le hle]
    show (c.sp.toNat - 256) % 16 = 0
    omega
  obtain ⟨c₃, hexit, hx, hsp₃⟩ := run_exitException haligned
  rw [hframe, hx₀, ← hsp₂] at hresult
  refine ⟨frameAt c₂ c₂.sp, c₃, hresult, hexit, hx, ?_⟩
  rw [hsp₃, hsp₂, hsp₁, BitVec.sub_add_cancel]

end Frame

/-! ## The refinement -/

section

variable {entries irq exitAddress instruction} {spEl2 : BitVec 64} {g : GuestCpu σ} {c : TrapCpu σ}

/-- What an exception is for the guest. -/
theorem GuestStep.of_handler {handler : ExceptionHandler} {e : Syndrome} {registers : Registers}
    {pc : BitVec 64} {s : σ}
    (h : handler.exec entries irq e (saveRegisters g.x, g.pc, g.devices) = .ok (registers, pc, s)) :
    GuestStep entries irq instruction g ⟨restoreRegisters registers, pc, s⟩ := by
  cases handler with
  | synchronousHandler =>
    rw [ExceptionHandler.exec] at h
    split_ifs at h with hec
    simp only [Exec.bind_eq_ok, checkedAdd_eq_ok] at h
    obtain ⟨⟨registers', s'⟩, haccess, elrEl2, ⟨hlt, rfl⟩, h⟩ := h
    cases h
    have hpc : BitVec.ofNat 64 (g.pc.toNat + 4) = g.pc + 4#64 := by
      rw [BitVec.ofNat_add, BitVec.ofNat_toNat]
      rfl
    rw [hpc]
    refine .access e hec ?_
    rw [guestAccess, haccess]
    rfl
  | irqHandler =>
    rw [ExceptionHandler.exec] at h
    obtain ⟨s', hirq, h⟩ := Exec.bind_eq_ok.mp h
    cases h
    rw [restore_save]
    exact .interrupt hirq

theorem trap_simulation (hsp : spEl2.toNat % 16 = 0) (h : 256 ≤ spEl2.toNat) :
    Simulation (trapSystem entries irq exitAddress instruction spEl2 g)
      (guestSystem entries irq instruction g)
      fun c g' => c.core.sp = spEl2 ∧ c.guest = g' where
  init c hc := ⟨g, rfl, hc⟩
  step := by
    rintro c c' g' - - ⟨hc, rfl⟩ hstep
    cases hstep with
    | instruction memory hi => exact ⟨_, .single (.instruction hi), hc, rfl⟩
    | exception e htable hentry hcall hexit =>
      obtain ⟨registers, c₃, hresult, hrun, hx, hsp₃⟩ := hcall.exit (hc ▸ hsp) (hc ▸ h) hentry
      cases hrun.symm.trans hexit
      refine ⟨_, .single (.of_handler hresult), hsp₃.trans hc, ?_⟩
      rw [TrapCpu.guest, hx]

/-- Whatever a guest does, and whatever interrupts it : what it sees is a run in which a trapped
access is one step that changes one register and goes to the next instruction, and an interrupt
changes no register. The stack of the hypervisor is empty after each exception, and the next one
finds the registers in its frame. -/
theorem trapRun_refines (hsp : spEl2.toNat % 16 = 0) (h : 256 ≤ spEl2.toNat)
    (hc : (trapSystem entries irq exitAddress instruction spEl2 g).Reachable c) :
    (guestSystem entries irq instruction g).Reachable c.guest ∧ c.core.sp = spEl2 ∧
      ∃ c₁, c.core.run (exceptionEntry exitAddress) = .ok c₁ ∧ c₁.reg 30 = exitAddress ∧
        frameAt c₁ (c₁.reg 0) = saveRegisters c.core.x := by
  obtain ⟨g', hg', hsp', rfl⟩ := (trap_simulation hsp h).reachable hc
  obtain ⟨c₁, hrun, -, -, hexit, hframe⟩ := run_exceptionEntry exitAddress (hsp' ▸ hsp) (hsp' ▸ h)
  exact ⟨hg', hsp', c₁, hrun, hexit, hframe⟩

end

/-- A guest that is interrupted once. -/
theorem trapRun_refines_irq : ∃ c : TrapCpu ℕ, c.devices = 1 ∧ c.core.sp = 0x1000#64 ∧
    (guestSystem [] (fun n => .ok (n + 1)) (fun _ _ => False) ⟨fun _ => 7#64, 0x40000000#64, 0⟩).Reachable
      c.guest := by
  have h₀ : (trapSystem [] (fun n => .ok (n + 1)) 0x40400000#64 (fun _ _ => False) 0x1000#64
      ⟨fun _ => 7#64, 0x40000000#64, 0⟩).Reachable
      ⟨⟨fun _ => 7#64, 0x1000#64, ⟨fun _ => 0#8, []⟩⟩, 0x40000000#64, 0⟩ := .init ⟨rfl, rfl⟩
  obtain ⟨c₁, hentry, -⟩ := run_exceptionEntry (c := ⟨fun _ => 7#64, 0x1000#64, ⟨fun _ => 0#8, []⟩⟩)
    0x40400000#64
    (by decide) (by decide)
  have hcall : Called (ExceptionHandler.irqHandler.exec [] (fun n => .ok (n + 1)) ⟨0#64, 0#64, 0#64⟩)
    (c₁, 0x40000000#64, 0) (c₁, 0x40000000#64, 1) := ⟨rfl, rfl⟩
  obtain ⟨_, c₃, -, hexit, -⟩ := hcall.exit (by decide) (by decide) hentry
  have h₁ := h₀.step (.exception _ (show exceptionTable .lowerElAarch64 .irq = _ from rfl)
      hentry hcall hexit)
  obtain ⟨hguest, hsp, -⟩ := trapRun_refines (by decide) (by decide) h₁
  exact ⟨_, rfl, hsp, hguest⟩

end MiniVisor
