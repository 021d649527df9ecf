import MiniVisor.GicMmio

/-!
# The emulated UART

`mmio/pl011.rs` keeps the bytes for the guest in an array of four, where zero means an empty slot.
`push` takes the first empty slot. A read of `UART_DR` moves the bytes up by one slot, and leaves the last
slot as it is.

A run (`UartRun`) interleaves pushes and register accesses. As long as no read finds the last slot in use,
the buffer is a queue (`uartRun_fifo`); a read that does is followed by the last byte twice.
-/

namespace MiniVisor

open Machine

def uartDr : ℕ := 0x000
def uartFr : ℕ := 0x018
def uartCr : ℕ := 0x030
def uartImsc : ℕ := 0x038
def uartRis : ℕ := 0x03C
def uartIcr : ℕ := 0x044
def uartPeriphId0 : ℕ := 0xFE0
def uartPeriphId1 : ℕ := 0xFE4
def uartPeriphId2 : ℕ := 0xFE8
def uartPeriphId3 : ℕ := 0xFEC
def uartPcellId0 : ℕ := 0xFF0
def uartPcellId1 : ℕ := 0xFF4
def uartPcellId2 : ℕ := 0xFF8
def uartPcellId3 : ℕ := 0xFFC
def uartFrRxfe : BitVec 16 := 1#16 <<< 4
def uartImscRxim : BitVec 16 := 1#16 <<< 4
def uartRisRxris : BitVec 16 := 1#16 <<< 4
def pl011IntId : ℕ := 33

structure Pl011Mmio where
  flag : BitVec 16
  interruptMask : BitVec 16
  rawInterruptStatus : BitVec 16
  control : BitVec 16
  readBuffer : List (BitVec 8)
  length_readBuffer : readBuffer.length = 4

/-- The loop of `push` : the first empty slot takes the byte. -/
def storeByte (data : BitVec 8) : List (BitVec 8) → List (BitVec 8)
  | [] => []
  | c :: cs => if c = 0#8 then data :: cs else c :: storeByte data cs

/-- The loop of `read` : each slot but the last takes the byte of the next one. -/
def shiftBytes (buffer : List (BitVec 8)) : List (BitVec 8) :=
  (List.range (buffer.length - 1)).foldl (fun b i => b.set i (b.getD (i + 1) 0#8)) buffer

theorem length_storeByte (data : BitVec 8) : ∀ buffer : List (BitVec 8),
    (storeByte data buffer).length = buffer.length
  | [] => rfl
  | c :: cs => by
    rw [storeByte]
    split_ifs
    · rfl
    · rw [List.length_cons, length_storeByte data cs, List.length_cons]

/-- Four slots after a read. -/
theorem shiftBytes_eq (a b c d : BitVec 8) : shiftBytes [a, b, c, d] = [b, c, d, d] :=
  rfl

theorem length_shiftBytes {buffer : List (BitVec 8)} (h : buffer.length = 4) :
    (shiftBytes buffer).length = 4 := by
  match buffer, h with
  | [a, b, c, d], _ => rfl

namespace Pl011Mmio

def new : Pl011Mmio where
  flag := 0
  interruptMask := 0
  rawInterruptStatus := 0
  control := 0
  readBuffer := [0, 0, 0, 0]
  length_readBuffer := rfl

variable (self : Pl011Mmio)

/-- `push`, on the CPU `cpu`. -/
def push (data : BitVec 8) (distributor : GicDistributorMmio) (cpu : Cpu) :
    Exec (Pl011Mmio × GicDistributorMmio × Cpu) := do
  let self := { self with
    readBuffer := storeByte data self.readBuffer
    length_readBuffer := by rw [length_storeByte, self.length_readBuffer]
    flag := self.flag &&& ~~~uartFrRxfe }
  if self.interruptMask &&& uartImscRxim ≠ 0#16 then
    let self := { self with rawInterruptStatus := self.rawInterruptStatus ||| uartRisRxris }
    let (distributor, cpu) ← distributor.triggerInterrupt cpu pl011IntId none
    pure (self, distributor, cpu)
  else pure (self, distributor, cpu)

/-- The branch of `read` for `UART_DR`. -/
def readDr : BitVec 64 × Pl011Mmio :=
  let value := (self.readBuffer.getD 0 0#8).setWidth 64
  let self := { self with
    readBuffer := shiftBytes self.readBuffer
    length_readBuffer := length_shiftBytes self.length_readBuffer }
  if self.readBuffer.getD 0 0#8 = 0#8 then
    (value, { self with
      flag := self.flag ||| uartFrRxfe
      rawInterruptStatus := self.rawInterruptStatus &&& ~~~uartRisRxris })
  else (value, self)

/-- The other branches of `read`, which change nothing. -/
def readRegister (offset : ℕ) : BitVec 64 :=
  if offset = uartFr then self.flag.setWidth 64
  else if offset = uartCr then self.control.setWidth 64
  else if offset = uartImsc then self.interruptMask.setWidth 64
  else if offset = uartRis then self.rawInterruptStatus.setWidth 64
  else if offset = uartPeriphId0 then 0x11#64
  else if offset = uartPeriphId1 then 0x01#64 <<< 4
  else if offset = uartPeriphId2 then (0x03#64 <<< 4) ||| 0x04#64
  else if offset = uartPeriphId3 then 0x00#64
  else if offset = uartPcellId0 then 0x0D#64
  else if offset = uartPcellId1 then 0xF0#64
  else if offset = uartPcellId2 then 0x05#64
  else if offset = uartPcellId3 then 0xB1#64
  else 0x00#64

/-- `<Pl011Mmio as MmioHandler>::read`. -/
def read (offset : ℕ) : BitVec 64 × Pl011Mmio :=
  if offset = uartDr then self.readDr else (self.readRegister offset, self)

/-- `<Pl011Mmio as MmioHandler>::write`, with the character it prints. -/
def write (offset : ℕ) (value : BitVec 64) : Option (BitVec 8) × Pl011Mmio :=
  if offset = uartDr then (some (value.setWidth 8), self)
  else if offset = uartCr then (none, { self with control := value.setWidth 16 })
  else if offset = uartImsc then (none, { self with interruptMask := value.setWidth 16 })
  else if offset = uartIcr then (none, { self with
    rawInterruptStatus := self.rawInterruptStatus &&& ~~~(value.setWidth 16) })
  else (none, self)

/-! ## The buffer under the operations -/

variable {self}

theorem readBuffer_push {data : BitVec 8} {distributor : GicDistributorMmio} {cpu : Cpu}
    {r : Pl011Mmio × GicDistributorMmio × Cpu} (h : self.push data distributor cpu = .ok r) :
    r.1.readBuffer = storeByte data self.readBuffer := by
  simp only [push] at h
  split_ifs at h
  · obtain ⟨_, -, h⟩ := Exec.bind_eq_ok.mp h
    rw [← Except.ok.inj h]
  · rw [← Except.ok.inj h]

@[simp] theorem readBuffer_readDr : self.readDr.2.readBuffer = shiftBytes self.readBuffer := by
  simp only [readDr]
  split_ifs <;> rfl

@[simp] theorem readDr_fst : self.readDr.1 = (self.readBuffer.getD 0 0#8).setWidth 64 := by
  simp only [readDr]
  split_ifs <;> rfl

theorem readBuffer_read {offset : ℕ} (h : offset ≠ uartDr) :
    (self.read offset).2.readBuffer = self.readBuffer := by
  rw [read, if_neg h]

theorem readBuffer_write {offset : ℕ} {value : BitVec 64} :
    (self.write offset value).2.readBuffer = self.readBuffer := by
  unfold write
  split_ifs <;> rfl

end Pl011Mmio

/-! ## The queue in the buffer -/

/-- The buffer holds the bytes of `q`, in order, and then zeros. -/
structure HoldsQueue (buffer q : List (BitVec 8)) : Prop where
  le : q.length ≤ 4
  ne_zero : ∀ x ∈ q, x ≠ 0#8
  eq : buffer = q ++ List.replicate (4 - q.length) 0#8

theorem storeByte_append {data : BitVec 8} {q : List (BitVec 8)} (hq : ∀ x ∈ q, x ≠ 0#8)
    (zeros : List (BitVec 8)) : storeByte data (q ++ zeros) = q ++ storeByte data zeros := by
  induction q with
  | nil => rfl
  | cons x q ih =>
    rw [List.cons_append, storeByte, if_neg (hq x (by simp)),
      ih fun y hy => hq y (List.mem_cons_of_mem x hy), List.cons_append]

/-- A byte that is not zero goes to the end of the queue, if there is room. -/
theorem HoldsQueue.storeByte {buffer q : List (BitVec 8)} (h : HoldsQueue buffer q)
    {data : BitVec 8} (hdata : data ≠ 0#8) :
    HoldsQueue (storeByte data buffer) (if q.length < 4 then q ++ [data] else q) := by
  obtain ⟨hle, hne, rfl⟩ := h
  rw [storeByte_append hne]
  split_ifs with hlt
  · refine ⟨by simp; omega, fun x hx => ?_, ?_⟩
    · rcases List.mem_append.mp hx with hx | hx
      · exact hne x hx
      · rw [List.mem_singleton.mp hx]
        exact hdata
    · rw [show 4 - q.length = 4 - (q ++ [data]).length + 1 by simp; omega, List.replicate_succ,
        MiniVisor.storeByte, if_pos rfl, List.append_assoc, List.singleton_append]
  · refine ⟨hle, hne, ?_⟩
    rw [show 4 - q.length = 0 by omega]
    rfl

/-- The last slot is in use only if the queue has four bytes. -/
theorem HoldsQueue.last {buffer q : List (BitVec 8)} (h : HoldsQueue buffer q) :
    buffer.getD 3 0#8 = 0#8 ↔ q.length < 4 := by
  obtain ⟨hle, hne, rfl⟩ := h
  match q, hle with
  | [], _ | [_], _ | [_, _], _ | [_, _, _], _ => simp
  | [a, b, c, d], _ => simpa using hne d (by simp)

/-- A read takes the first byte off the queue, unless the last slot is in use. -/
theorem HoldsQueue.shiftBytes {buffer q : List (BitVec 8)} (h : HoldsQueue buffer q)
    (hlast : q.length < 4) : HoldsQueue (shiftBytes buffer) q.tail := by
  obtain ⟨hle, hne, rfl⟩ := h
  refine ⟨by simp; omega, fun x hx => hne x (List.mem_of_mem_tail hx), ?_⟩
  match q, hlast with
  | [], _ | [_], _ | [_, _], _ | [_, _, _], _ => rfl

theorem HoldsQueue.head {buffer q : List (BitVec 8)} (h : HoldsQueue buffer q) :
    buffer.getD 0 0#8 = q.headD 0#8 := by
  obtain ⟨hle, -, rfl⟩ := h
  match q with
  | [] | _ :: _ => rfl

/-! ## Runs -/

/-- What happens to the UART. A push finds the interrupt controller and the CPU in any state. -/
inductive UartEvent
  | push (data : BitVec 8) (distributor : GicDistributorMmio) (cpu : Cpu)
  | read (offset accessWidth : ℕ)
  | write (offset accessWidth : ℕ) (value : BitVec 64)

/-- The UART, with the pushes that were accepted and the values that reads of `UART_DR` returned so
far. -/
structure UartTrace where
  uart : Pl011Mmio
  accepted : List (BitVec 8)
  returned : List (BitVec 64)

namespace UartTrace

def new : UartTrace :=
  ⟨.new, [], []⟩

variable (t : UartTrace)

/-- The accepted bytes, as the guest reads them. -/
def sent : List (BitVec 64) :=
  t.accepted.map (BitVec.setWidth 64)

/-- The values that are not zero. -/
def received : List (BitVec 64) :=
  t.returned.filter (· ≠ 0#64)

/-- A byte is accepted while fewer than four are unread. -/
def accept (data : BitVec 8) : List (BitVec 8) :=
  if t.accepted.length - t.received.length < 4 then t.accepted ++ [data] else t.accepted

/-- The effect of an event. -/
def exec : UartEvent → Exec UartTrace
  | .push data distributor cpu => do
    let (uart, _) ← t.uart.push data distributor cpu
    pure { t with uart, accepted := t.accept data }
  | .read offset _ =>
    .ok { t with
      uart := (t.uart.read offset).2
      returned := if offset = uartDr then t.returned ++ [(t.uart.read offset).1] else t.returned }
  | .write offset _ value => .ok { t with uart := (t.uart.write offset value).2 }

/-- The values read are the first of the bytes sent, and a read would return the next one, or zero if there
is none. -/
def IsFifo : Prop :=
  t.received <+: t.sent ∧ (t.uart.read uartDr).1 = (t.sent.drop t.received.length).headD 0#64

/-- `n` reads of `UART_DR`, one after the other. -/
def readMany : ℕ → UartTrace → Exec UartTrace
  | 0, t => .ok t
  | n + 1, t => do readMany n (← t.exec (.read uartDr 32))

end UartTrace

/-- The last slot is free whenever `UART_DR` is read. -/
def LastSlotFree (t : UartTrace) : UartEvent → Prop
  | .read offset _ => offset = uartDr → t.uart.readBuffer.getD 3 0#8 = 0#8
  | _ => True

/-- No push of a zero byte. -/
def UartEvent.NonZero : UartEvent → Prop
  | .push data _ _ => data ≠ 0#8
  | _ => True

/-- The runs in which every event meets `C`. -/
inductive UartRun (C : UartTrace → UartEvent → Prop) : UartTrace → Prop
  | new : UartRun C .new
  | step {t t' : UartTrace} (e : UartEvent) (h : UartRun C t) (hdata : e.NonZero) (hc : C t e)
      (he : t.exec e = .ok t') : UartRun C t'

/-- The buffer holds what was accepted and not yet read. -/
def UartTrace.Inv (t : UartTrace) (q : List (BitVec 8)) : Prop :=
  HoldsQueue t.uart.readBuffer q ∧ t.sent = t.received ++ q.map (BitVec.setWidth 64)

namespace UartTrace.Inv

variable {t t' : UartTrace} {q : List (BitVec 8)}

theorem length_accepted (h : t.Inv q) : t.accepted.length = t.received.length + q.length := by
  have := congrArg List.length h.2
  simpa [sent] using this

theorem push (h : t.Inv q) {data : BitVec 8} (hdata : data ≠ 0#8) {uart : Pl011Mmio}
    (huart : uart.readBuffer = storeByte data t.uart.readBuffer) :
    ∃ q', Inv { t with uart, accepted := t.accept data } q' := by
  have hlen := h.length_accepted
  refine ⟨_, huart ▸ h.1.storeByte hdata, ?_⟩
  have hroom : t.accepted.length - t.received.length = q.length := by omega
  simp only [sent, accept, hroom] at h ⊢
  split_ifs
  · rw [List.map_append, List.map_append, ← List.append_assoc]
    exact congrArg (· ++ _) h.2
  · exact h.2

theorem setWidth_ne_zero {x : BitVec 8} (hx : x ≠ 0#8) : x.setWidth 64 ≠ 0#64 := by
  intro h
  refine hx (BitVec.eq_of_toNat_eq ?_)
  have hx := congrArg BitVec.toNat h
  have hlt := x.isLt
  rw [BitVec.toNat_setWidth, Nat.mod_eq_of_lt (by omega)] at hx
  exact hx

/-- A read of `UART_DR`, with the last slot free. -/
theorem readDr (h : t.Inv q) (hlast : q.length < 4) :
    Inv { t with
      uart := (t.uart.read uartDr).2
      returned := t.returned ++ [(t.uart.read uartDr).1] } q.tail := by
  obtain ⟨hq, hsent⟩ := h
  refine ⟨?_, ?_⟩
  · simp only [Pl011Mmio.read, if_true, Pl011Mmio.readBuffer_readDr]
    exact hq.shiftBytes hlast
  · simp only [received, sent, Pl011Mmio.read, if_true, Pl011Mmio.readDr_fst, List.filter_append,
      hq.head] at hsent ⊢
    rw [hsent]
    cases q with
    | nil => simp
    | cons x q =>
      have hx := setWidth_ne_zero (hq.ne_zero x (by simp))
      simp [hx]

theorem isFifo (h : t.Inv q) : t.IsFifo := by
  obtain ⟨hq, hsent⟩ := h
  refine ⟨⟨_, hsent.symm⟩, ?_⟩
  rw [hsent, List.drop_left, Pl011Mmio.read, if_pos rfl, Pl011Mmio.readDr_fst, hq.head]
  cases q <;> rfl

theorem exec (h : t.Inv q) {e : UartEvent} (hdata : e.NonZero) (hc : LastSlotFree t e)
    (he : t.exec e = .ok t') : ∃ q', t'.Inv q' := by
  cases e with
  | push data distributor cpu =>
    simp only [UartTrace.exec, Exec.bind_eq_ok] at he
    obtain ⟨⟨uart, _⟩, hpush, he⟩ := he
    cases he
    exact h.push hdata (Pl011Mmio.readBuffer_push hpush)
  | read offset accessWidth =>
    cases he
    by_cases ho : offset = uartDr
    · subst ho
      simp only [if_true]
      exact ⟨_, h.readDr (h.1.last.mp (hc rfl))⟩
    · simp only [if_neg ho]
      exact ⟨q, by rw [Pl011Mmio.readBuffer_read ho]; exact h.1, h.2⟩
  | write offset accessWidth value =>
    cases he
    exact ⟨q, by rw [Pl011Mmio.readBuffer_write]; exact h.1, h.2⟩

/-- The last slot stays free under reads. -/
theorem readMany : ∀ (n : ℕ) {t : UartTrace} {q : List (BitVec 8)}, t.Inv q → q.length < 4 →
    ∃ t' q', UartTrace.readMany n t = .ok t' ∧ t'.Inv q'
  | 0, t, q, h, _ => ⟨t, q, rfl, h⟩
  | n + 1, t, q, h, hlast => readMany n (h.readDr hlast) (by rw [List.length_tail]; omega)

end UartTrace.Inv

/-- A full buffer stays full under reads, which return a byte each time. -/
theorem UartTrace.readMany_full : ∀ (n : ℕ) {t : UartTrace} {q : List (BitVec 8)},
    HoldsQueue t.uart.readBuffer q → q.length = 4 → ∃ t', UartTrace.readMany n t = .ok t' ∧
      t'.sent = t.sent ∧ t'.received.length = t.received.length + n ∧ t'.uart.flag = t.uart.flag
  | 0, t, _, _, _ => ⟨t, rfl, rfl, rfl, rfl⟩
  | n + 1, t, q, ⟨_, hne, hbuf⟩, hfull => by
    match q, hfull with
    | [a, b, c, d], _ =>
      have hbuf' : t.uart.readBuffer = [a, b, c, d] := hbuf
      have hb := hne b (by simp)
      have hflag : (t.uart.read uartDr).2.flag = t.uart.flag := by
        simp [Pl011Mmio.read, Pl011Mmio.readDr, hbuf', shiftBytes_eq, hb]
      obtain ⟨t', ht', hsent, hlen, hkeep⟩ := readMany_full n (t := { t with
          uart := (t.uart.read uartDr).2
          returned := t.returned ++ [(t.uart.read uartDr).1] }) (q := [b, c, d, d])
        ⟨by simp, by simpa using fun x hx => hne x (List.mem_cons_of_mem a hx), by
          simp only [Pl011Mmio.read, if_true, Pl011Mmio.readBuffer_readDr, hbuf', shiftBytes_eq]
          rfl⟩ rfl
      refine ⟨t', ht', hsent, ?_, hkeep.trans hflag⟩
      have ha := Inv.setWidth_ne_zero (hne a (by simp))
      rw [hlen]
      simp only [received, List.filter_append, List.length_append, Pl011Mmio.read, if_true,
        Pl011Mmio.readDr_fst, hbuf']
      simp [ha]
      omega

theorem uartRun_invariant {t : UartTrace} (h : UartRun LastSlotFree t) : ∃ q, t.Inv q := by
  induction h with
  | new => exact ⟨[], ⟨by simp, by simp, rfl⟩, rfl⟩
  | step e _ hdata hc he ih =>
    obtain ⟨q, hq⟩ := ih
    exact hq.exec hdata hc he

/-- In every run in which reads find the last slot free the buffer is a queue; and from each state of such
a run it is still one after five reads exactly if the last slot is free. -/
theorem uartRun_fifo {t : UartTrace} (h : UartRun LastSlotFree t) :
    t.IsFifo ∧ ∃ t', UartTrace.readMany 5 t = .ok t' ∧
      (t'.IsFifo ↔ t.uart.readBuffer.getD 3 0#8 = 0#8) := by
  obtain ⟨q, hq⟩ := uartRun_invariant h
  refine ⟨hq.isFifo, ?_⟩
  rw [hq.1.last]
  by_cases hlast : q.length < 4
  · obtain ⟨t', q', ht', hq'⟩ := hq.readMany 5 hlast
    exact ⟨t', ht', iff_of_true hq'.isFifo hlast⟩
  · have hfull : q.length = 4 := by
      have := hq.1.le
      omega
    obtain ⟨t', ht', hsent, hlen, -⟩ := UartTrace.readMany_full 5 hq.1 hfull
    refine ⟨t', ht', iff_of_false (fun hfifo => ?_) hlast⟩
    have hle := hfifo.1.length_le
    rw [hlen, hsent, hq.2, List.length_append, List.length_map, hfull] at hle
    omega

/-- A CPU without interrupts. -/
def idleCpu : Cpu where
  mpidrEl1 := 0
  ichVtrEl2 := 0
  lr := fun _ => 0#64
  iccSgi1rEl1 := []

/-- Two bytes are pushed and one is read, a third is pushed, and the guest reads until there is none. -/
theorem uartRun_fifo_reads : ∃ t, UartRun LastSlotFree t ∧ t.accepted = [0x41, 0x42, 0x43] ∧
    t.returned = [0x41, 0x42, 0x43, 0] ∧ t.IsFifo := by
  have push (x : BitVec 8) (hx : x ≠ 0#8) {t t' : UartTrace} (h : UartRun LastSlotFree t)
      (he : t.exec (.push x .new idleCpu) = .ok t') : UartRun LastSlotFree t' :=
    .step (.push x .new idleCpu) h hx trivial he
  have read {t t' : UartTrace} (h : UartRun LastSlotFree t) (hlast : t.uart.readBuffer.getD 3 0#8 = 0#8)
      (he : t.exec (.read uartDr 32) = .ok t') : UartRun LastSlotFree t' :=
    .step (.read uartDr 32) h trivial (fun _ => hlast) he
  have h₂ := push 0x42 (by decide) (push 0x41 (by decide) .new rfl) rfl
  have h₄ := push 0x43 (by decide) (read h₂ (by decide) rfl) rfl
  have h₇ := read (read (read h₄ (by decide) rfl) (by decide) rfl) (by decide) rfl
  exact ⟨_, h₇, rfl, rfl, (uartRun_fifo h₇).1⟩

/-- Four bytes are pushed, and five are read. -/
theorem uartRun_not_fifo :
    ∃ t, UartRun (fun _ _ => True) t ∧ t.accepted = [1, 2, 3, 4] ∧
      t.returned = [1, 2, 3, 4, 4] ∧ ¬ t.IsFifo := by
  have step {t t' : UartTrace} (e : UartEvent) (h : UartRun (fun _ _ => True) t) (hd : e.NonZero)
      (he : t.exec e = .ok t') : UartRun (fun _ _ => True) t' :=
    .step e h hd trivial he
  have push (x : BitVec 8) (hx : x ≠ 0#8) {t t' : UartTrace} (h : UartRun (fun _ _ => True) t)
      (he : t.exec (.push x .new idleCpu) = .ok t') : UartRun (fun _ _ => True) t' :=
    step (.push x .new idleCpu) h hx he
  have h₄ := push 4 (by decide) (push 3 (by decide) (push 2 (by decide) (push 1 (by decide) .new rfl)
    rfl) rfl) rfl
  have h₇ := step (.read uartDr 32) (step (.read uartDr 32) (step (.read uartDr 32) h₄ trivial rfl)
    trivial rfl) trivial rfl
  have h₉ := step (.read uartDr 32) (step (.read uartDr 32) h₇ trivial rfl) trivial rfl
  refine ⟨_, h₉, rfl, rfl, fun hfifo => ?_⟩
  exact absurd hfifo.1 (by decide)

end MiniVisor
