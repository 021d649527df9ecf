import MiniVisor.Memory

/-!
# Pushing and popping registers

The AArch64 instructions that build a frame on the stack : `sub` and `add` on `sp`, `stp` and `ldp` with an
offset to it, `mov` from it, and `adr`. Code is straight, and what it branches to is not part of it.

`saveFrame` pushes all registers by pairs and `restoreFrame` pops them. `run_saveFrame` and
`run_restoreFrame` say what they do, and that no other byte changes. -/

namespace Machine

/-- The registers and the memory of a CPU. -/
structure Core where
  x : Fin 31 → BitVec 64
  sp : BitVec 64
  memory : Memory

/-- An instruction. Register 31 is `xzr`. -/
inductive Instruction
  | subSp (imm : BitVec 64)
  | addSp (imm : BitVec 64)
  | stp (t t' : Fin 32) (imm : BitVec 64)
  | ldp (t t' : Fin 32) (imm : BitVec 64)
  | movSp (d : Fin 32)
  | adr (d : Fin 32) (label : BitVec 64)

namespace Core

/-- The value of a register. `xzr` is zero. -/
def reg (c : Core) (n : Fin 32) : BitVec 64 :=
  if h : n.val < 31 then c.x ⟨n.val, h⟩ else 0#64

/-- The registers with one of them written. A write to `xzr` is lost. -/
def setReg (c : Core) (n : Fin 32) (value : BitVec 64) : Core :=
  { c with x := fun i => if i.castSucc = n then value else c.x i }

/-- The word at `address`. -/
def word (c : Core) (address : BitVec 64) : BitVec 64 :=
  BitVec.ofNat 64 (c.memory.value address.toNat 8)

def setWord (c : Core) (address value : BitVec 64) : Core :=
  { c with memory := c.memory.poke address.toNat 8 value.toNat }

/-- One instruction. A stack pointer that is not aligned faults. -/
def step (c : Core) : Instruction → Exec Core
  | .subSp imm => .ok { c with sp := c.sp - imm }
  | .addSp imm => .ok { c with sp := c.sp + imm }
  | .stp t t' imm => do
    assert (c.sp.toNat % 16 = 0)
    .ok ((c.setWord (c.sp + imm) (c.reg t)).setWord (c.sp + imm + 8#64) (c.reg t'))
  | .ldp t t' imm => do
    assert (c.sp.toNat % 16 = 0)
    .ok ((c.setReg t (c.word (c.sp + imm))).setReg t' (c.word (c.sp + imm + 8#64)))
  | .movSp d => .ok (c.setReg d c.sp)
  | .adr d label => .ok (c.setReg d label)

/-- Straight code. -/
def run (c : Core) : List Instruction → Exec Core
  | [] => .ok c
  | i :: code => do (← c.step i).run code

theorem run_append (c : Core) (code code' : List Instruction) :
    c.run (code ++ code') = (do (← c.run code).run code') := by
  induction code generalizing c with
  | nil => rfl
  | cons i code ih =>
    rw [List.cons_append, run, run]
    cases c.step i with
    | error t => rfl
    | ok c' => exact ih c'

@[simp] theorem setWord_x (c : Core) (address value : BitVec 64) : (c.setWord address value).x = c.x := rfl

@[simp] theorem setWord_sp (c : Core) (address value : BitVec 64) : (c.setWord address value).sp =
    c.sp := rfl

@[simp] theorem setWord_reg (c : Core) (address value : BitVec 64) (n : Fin 32) :
    (c.setWord address value).reg n = c.reg n := rfl

@[simp] theorem setReg_sp (c : Core) (n : Fin 32) (value : BitVec 64) : (c.setReg n value).sp = c.sp := rfl

theorem setReg_x (c : Core) (n : Fin 32) (value : BitVec 64) (i : Fin 31) :
    (c.setReg n value).x i = if i.castSucc = n then value else c.x i := rfl

@[simp] theorem setReg_memory (c : Core) (n : Fin 32) (value : BitVec 64) :
    (c.setReg n value).memory = c.memory := rfl

/-! ## Frames -/

/-- The pairs below `n`, the last one first. -/
def storePairs : ℕ → List Instruction
  | 0 => []
  | n + 1 => .stp (.ofNat 32 (2 * n)) (.ofNat 32 (2 * n + 1)) (.ofNat 64 (16 * n)) :: storePairs n

def loadPairs : ℕ → List Instruction
  | 0 => []
  | n + 1 => .ldp (.ofNat 32 (2 * n)) (.ofNat 32 (2 * n + 1)) (.ofNat 64 (16 * n)) :: loadPairs n

/-- All registers are pushed. The last pair is `x30` and `xzr`. -/
def saveFrame : List Instruction :=
  .subSp 256#64 :: storePairs 16

/-- All registers are popped. -/
def restoreFrame : List Instruction :=
  loadPairs 16 ++ [.addSp 256#64]

variable {c c' : Core} {n : ℕ}

/-- The address of the word `j` of a frame. -/
theorem toNat_slot (h : c.sp.toNat + 256 < 2 ^ 64) {j : ℕ} (hj : j < 32) :
    (c.sp + BitVec.ofNat 64 (8 * j)).toNat = c.sp.toNat + 8 * j := by
  rw [BitVec.toNat_add, BitVec.toNat_ofNat, Nat.mod_eq_of_lt (a := 8 * j) (by omega),
    Nat.mod_eq_of_lt (by omega)]

/-- The words below `2 * n` of the frame at `sp` are the registers, and other bytes are as they were. -/
structure Saved (c c' : Core) (n : ℕ) : Prop where
  x : c'.x = c.x
  sp : c'.sp = c.sp
  words : ∀ j : Fin 32, j.val < 2 * n → c'.memory.value (c.sp.toNat + 8 * j) 8 = (c.reg j).toNat
  frame : ∀ a size, a + size ≤ c.sp.toNat ∨ c.sp.toNat + 16 * n ≤ a →
    c'.memory.value a size = c.memory.value a size

theorem value_setWord (c : Core) (address value : BitVec 64) :
    (c.setWord address value).memory.value address.toNat 8 = value.toNat :=
  Memory.value_poke_self (show value.toNat < 256 ^ 8 from value.isLt) _

theorem value_setWord_of_disjoint (c : Core) (address value : BitVec 64) {a size : ℕ}
    (h : a + size ≤ address.toNat ∨ address.toNat + 8 ≤ a) :
    (c.setWord address value).memory.value a size = c.memory.value a size :=
  Memory.value_poke_of_disjoint _ h

theorem toNat_pair (h : c.sp.toNat + 256 < 2 ^ 64) (hn : n < 16) :
    (c.sp + BitVec.ofNat 64 (16 * n)).toNat = c.sp.toNat + 16 * n ∧
      (c.sp + BitVec.ofNat 64 (16 * n) + 8#64).toNat = c.sp.toNat + 16 * n + 8 := by
  have hfirst : (c.sp + BitVec.ofNat 64 (16 * n)).toNat = c.sp.toNat + 16 * n := by
    rw [BitVec.toNat_add, BitVec.toNat_ofNat, Nat.mod_eq_of_lt (a := 16 * n) (by omega),
      Nat.mod_eq_of_lt (by omega)]
  refine ⟨hfirst, ?_⟩
  rw [BitVec.toNat_add, hfirst, BitVec.toNat_ofNat, Nat.mod_eq_of_lt (a := 8) (by decide),
    Nat.mod_eq_of_lt (by omega)]

/-- One pair is pushed, and then those before it. -/
theorem run_storePairs (hsp : c.sp.toNat % 16 = 0) (h : c.sp.toNat + 256 < 2 ^ 64) (hn : n ≤ 16) :
    ∃ c', c.run (storePairs n) = .ok c' ∧ Saved c c' n := by
  induction n generalizing c with
  | zero => exact ⟨c, rfl, rfl, rfl, fun j hj => absurd hj (by omega), fun _ _ _ => rfl⟩
  | succ n ih =>
    obtain ⟨hfirst, hsecond⟩ := toNat_pair (n := n) h (by omega)
    obtain ⟨c', hrun, hsaved⟩ := ih
      (c := (c.setWord (c.sp + BitVec.ofNat 64 (16 * n)) (c.reg (.ofNat 32 (2 * n)))).setWord
        (c.sp + BitVec.ofNat 64 (16 * n) + 8#64) (c.reg (.ofNat 32 (2 * n + 1)))) hsp h (by omega)
    refine ⟨c', ?_, hsaved.x, hsaved.sp, fun j hj => ?_, fun a size ha => ?_⟩
    · rw [storePairs, run, step, assert_of hsp]
      exact hrun
    · by_cases hlt : j.val < 2 * n
      · exact hsaved.words j hlt
      · have hout := hsaved.frame (c.sp.toNat + 8 * j) 8 (.inr (show c.sp.toNat + 16 * n ≤ _ by omega))
        rw [hout]
        by_cases heven : j.val = 2 * n
        · rw [value_setWord_of_disjoint _ _ _ (.inl (by omega)),
            show c.sp.toNat + 8 * j = (c.sp + BitVec.ofNat 64 (16 * n)).toNat by omega,
                value_setWord, show Fin.ofNat 32 (2 * n) = j from
              Fin.ext (by simp only [Fin.val_ofNat]; omega)]
        · rw [show c.sp.toNat + 8 * j = (c.sp + BitVec.ofNat 64 (16 * n) + 8#64).toNat by omega,
            value_setWord,
            show Fin.ofNat 32 (2 * n + 1) = j from Fin.ext (by simp only [Fin.val_ofNat]; omega)]
    · rw [hsaved.frame a size
        (by rcases ha with ha | ha; exacts [.inl ha, .inr (by show c.sp.toNat + _ ≤ _; omega)]),
        value_setWord_of_disjoint _ _ _ (by omega), value_setWord_of_disjoint _ _ _ (by omega)]

theorem castSucc_eq {i : Fin 31} (h : i.val = n) : i.castSucc = .ofNat 32 n :=
  Fin.ext (by simp only [Fin.val_castSucc, Fin.val_ofNat]; omega)

theorem castSucc_ne {i : Fin 31} (h : i.val ≠ n) (hn : n < 32) : i.castSucc ≠ .ofNat 32 n :=
  fun heq => h (by
  have := congrArg Fin.val heq
  simp only [Fin.val_castSucc, Fin.val_ofNat] at this
  omega)

/-- Below `2 * n` the registers are the words of the frame at `sp`, and nothing else has changed. -/
structure Loaded (c c' : Core) (n : ℕ) : Prop where
  sp : c'.sp = c.sp
  memory : c'.memory = c.memory
  loaded : ∀ i : Fin 31, i.val < 2 * n → c'.x i = c.word (c.sp + BitVec.ofNat 64 (8 * i))
  kept : ∀ i : Fin 31, 2 * n ≤ i.val → c'.x i = c.x i

theorem run_loadPairs (hsp : c.sp.toNat % 16 = 0) (hn : n ≤ 16) :
    ∃ c', c.run (loadPairs n) = .ok c' ∧ Loaded c c' n := by
  induction n generalizing c with
  | zero => exact ⟨c, rfl, rfl, rfl, fun i hi => absurd hi (by omega), fun _ _ => rfl⟩
  | succ n ih =>
    obtain ⟨c', hrun, hloaded⟩ := ih
      (c := (c.setReg (.ofNat 32 (2 * n)) (c.word (c.sp + BitVec.ofNat 64 (16 * n)))).setReg
        (.ofNat 32 (2 * n + 1)) (c.word (c.sp + BitVec.ofNat 64 (16 * n) + 8#64))) hsp (by omega)
    refine ⟨c', ?_, hloaded.sp, hloaded.memory, fun i hi => ?_, fun i hi => ?_⟩
    · rw [loadPairs, run, step, assert_of hsp]
      exact hrun
    · by_cases hlt : i.val < 2 * n
      · exact hloaded.loaded i hlt
      · rw [hloaded.kept i (by omega), setReg_x, setReg_x]
        by_cases heven : i.val = 2 * n
        · rw [if_neg (castSucc_ne (by omega) (by omega)), if_pos (castSucc_eq heven),
            show 16 * n = 8 * i.val by omega]
        · have hodd : i.val = 2 * n + 1 := by omega
          rw [if_pos (castSucc_eq hodd), BitVec.add_assoc, show 8 * i.val = 16 * n + 8 by omega,
            BitVec.ofNat_add]
    · rw [hloaded.kept i (by omega), setReg_x, setReg_x, if_neg (castSucc_ne (by omega) (by omega)),
        if_neg (castSucc_ne (by omega) (by omega))]

/-! ## What the frame is -/

/-- All registers are in the frame below the old stack pointer. -/
theorem run_saveFrame (hsp : c.sp.toNat % 16 = 0) (h : 256 ≤ c.sp.toNat) :
    ∃ c', c.run saveFrame = .ok c' ∧ c'.x = c.x ∧ c'.sp = c.sp - 256#64 ∧
      (∀ j : Fin 32, c'.word (c'.sp + BitVec.ofNat 64 (8 * j)) = c.reg j) ∧
        ∀ a size, a + size ≤ c.sp.toNat - 256 ∨ c.sp.toNat ≤ a →
          c'.memory.value a size = c.memory.value a size := by
  have hlt := c.sp.isLt
  have hframe : (c.sp - 256#64).toNat = c.sp.toNat - 256 := by
    rw [BitVec.toNat_sub_of_le (by rw [BitVec.le_def]; exact h)]
    rfl
  obtain ⟨c', hrun, hsaved⟩ := run_storePairs (c := { c with sp := c.sp - 256#64 }) (n := 16)
    (by dsimp only; omega) (by dsimp only; omega) le_rfl
  have hsp' : c'.sp = c.sp - 256#64 := hsaved.sp
  refine ⟨c', ?_, hsaved.x, hsp', fun j => ?_, fun a size ha => hsaved.frame a size ?_⟩
  · rw [saveFrame, run, step, Exec.ok_bind]
    exact hrun
  · rw [word, hsp', toNat_slot (c := { c with sp := c.sp - 256#64 }) (by dsimp only; omega) j.isLt]
    rw [hsaved.words j (by omega)]
    exact BitVec.ofNat_toNat ..
  · dsimp only
    omega

/-- The registers are what is in the frame at the stack pointer. -/
theorem run_restoreFrame (hsp : c.sp.toNat % 16 = 0) :
    ∃ c', c.run restoreFrame = .ok c' ∧ (∀ i : Fin 31, c'.x i = c.word (c.sp + BitVec.ofNat 64 (8 * i))) ∧
      c'.sp = c.sp + 256#64 ∧ c'.memory = c.memory := by
  obtain ⟨c', hrun, hloaded⟩ := run_loadPairs (n := 16) hsp le_rfl
  refine ⟨{ c' with sp := c'.sp + 256#64 }, ?_, fun i => hloaded.loaded i (by omega), ?_, hloaded.memory⟩
  · rw [restoreFrame, run_append, hrun]
    rfl
  · rw [hloaded.sp]

end Core

end Machine
