import MiniVisor.Bits
import MiniVisor.Pl011

/-!
# The status registers of the emulated UART

The bit RXFE of `UART_FR` is for an empty buffer, and the bit RXRIS of `UART_RIS` is for a byte that has
arrived since the guest has cleared the receive interrupt. Neither holds in every state : `new` leaves RXFE
clear although there is no byte, `push` sets RXRIS only if the guest has unmasked the interrupt, and a full
buffer is never empty again.

`uartLogRun_status` is the result for the runs without these three. A run (`UartLogRun`) is one of
`MiniVisor.Pl011` that also keeps when the interrupt was last cleared.
-/

namespace MiniVisor

open Machine

/-! ## What the guest sees -/

namespace UartTrace

variable (t : UartTrace)

/-- The bit RXFE of `UART_FR`. -/
def IsRxfe : Prop :=
  (t.uart.read uartFr).1 &&& uartFrRxfe.setWidth 64 ≠ 0#64

/-- The bit RXRIS of `UART_RIS`. -/
def IsRxris : Prop :=
  (t.uart.read uartRis).1 &&& uartRisRxris.setWidth 64 ≠ 0#64

/-- An accepted byte has not been read. -/
def Waiting : Prop :=
  t.received.length < t.accepted.length

/-- RXFE is set if no byte is waiting, and only then. -/
def FlagExact : Prop :=
  t.IsRxfe ↔ ¬t.Waiting

variable {t}

theorem isRxfe_iff : t.IsRxfe ↔ t.uart.flag &&& uartFrRxfe ≠ 0#16 :=
  not_congr (setWidth_and_eq_zero (show 16 ≤ 64 by decide) t.uart.flag uartFrRxfe)

theorem isRxris_iff : t.IsRxris ↔ t.uart.rawInterruptStatus &&& uartRisRxris ≠ 0#16 :=
  not_congr (setWidth_and_eq_zero (show 16 ≤ 64 by decide) t.uart.rawInterruptStatus uartRisRxris)

theorem Inv.waiting_iff {q : List (BitVec 8)} (h : t.Inv q) : t.Waiting ↔ q ≠ [] := by
  rw [Waiting, h.length_accepted, ← List.length_pos_iff]
  omega

end UartTrace

/-! ## Runs with the last clear of the interrupt -/

/-- A write that clears the receive interrupt. -/
def UartEvent.clears : UartEvent → Bool
  | .write offset _ value => offset == uartIcr && value.setWidth 16 &&& uartRisRxris != 0#16
  | _ => false

/-- A push, or a read of `UART_DR`. -/
def UartEvent.movesBytes : UartEvent → Bool
  | .push _ _ _ => true
  | .read offset _ => offset == uartDr
  | .write _ _ _ => false

/-- A trace, with how many bytes had been accepted when the receive interrupt was last cleared, and
whether a byte has been pushed or `UART_DR` has been read. -/
structure UartLog extends UartTrace where
  cleared : ℕ
  begun : Bool

namespace UartLog

def new : UartLog :=
  ⟨.new, 0, false⟩

variable (log : UartLog)

def exec (e : UartEvent) : Exec UartLog := do
  let t ← log.toUartTrace.exec e
  pure ⟨t, if e.clears then t.accepted.length else log.cleared, log.begun || e.movesBytes⟩

/-- A byte is waiting that has arrived since the receive interrupt was cleared. -/
def WaitingSince : Prop :=
  max log.received.length log.cleared < log.accepted.length

/-- RXRIS is set if such a byte is waiting. -/
def InterruptRaised : Prop :=
  log.WaitingSince → log.IsRxris

/-- A push is reported : the interrupt is unmasked, or RXRIS is set already, or there is no room. -/
def Reported : Prop :=
  log.uart.interruptMask &&& uartImscRxim ≠ 0#16 ∨ log.IsRxris ∨
    log.uart.readBuffer.getD 3 0#8 ≠ 0#8

end UartLog

/-- A read of `UART_DR` finds the last slot free, and a push is reported. -/
def StatusKept (log : UartLog) (e : UartEvent) : Prop :=
  LastSlotFree log.toUartTrace e ∧ (e matches .push _ _ _ → log.Reported)

/-- The runs in which every event meets `C`. -/
inductive UartLogRun (C : UartLog → UartEvent → Prop) : UartLog → Prop
  | new : UartLogRun C .new
  | step {log log' : UartLog} (e : UartEvent) (h : UartLogRun C log) (hdata : e.NonZero) (hc : C log e)
      (he : log.exec e = .ok log') : UartLogRun C log'

/-! ## The status under the operations -/

namespace Pl011Mmio

variable {self : Pl011Mmio}

theorem status_push {data : BitVec 8} {distributor : GicDistributorMmio} {cpu : Cpu}
    {r : Pl011Mmio × GicDistributorMmio × Cpu} (h : self.push data distributor cpu = .ok r) :
    r.1.flag = self.flag &&& ~~~uartFrRxfe ∧ r.1.rawInterruptStatus =
      if self.interruptMask &&& uartImscRxim ≠ 0#16 then self.rawInterruptStatus ||| uartRisRxris
      else self.rawInterruptStatus := by
  simp only [push] at h
  split_ifs at h with hmask
  · obtain ⟨_, -, h⟩ := Exec.bind_eq_ok.mp h
    rw [← Except.ok.inj h, if_pos hmask]
    exact ⟨rfl, rfl⟩
  · rw [← Except.ok.inj h, if_neg hmask]
    exact ⟨rfl, rfl⟩

theorem status_readDr (h : (shiftBytes self.readBuffer).getD 0 0#8 ≠ 0#8) :
    self.readDr.2.flag = self.flag ∧ self.readDr.2.rawInterruptStatus = self.rawInterruptStatus := by
  rw [readDr]
  dsimp only
  rw [if_neg h]
  exact ⟨rfl, rfl⟩

theorem status_readDr_empty (h : (shiftBytes self.readBuffer).getD 0 0#8 = 0#8) :
    self.readDr.2.flag = self.flag ||| uartFrRxfe := by
  rw [readDr]
  dsimp only
  rw [if_pos h]

theorem status_write (self : Pl011Mmio) (offset : ℕ) (value : BitVec 64) :
    (self.write offset value).2.flag = self.flag ∧
    (self.write offset value).2.rawInterruptStatus = if offset = uartIcr then
      self.rawInterruptStatus &&& ~~~(value.setWidth 16) else self.rawInterruptStatus := by
  by_cases hicr : offset = uartIcr
  · subst hicr
    exact ⟨rfl, rfl⟩
  · rw [if_neg hicr]
    unfold write
    split_ifs <;> exact ⟨rfl, rfl⟩

end Pl011Mmio

theorem HoldsQueue.head_eq_zero {buffer q : List (BitVec 8)} (h : HoldsQueue buffer q) :
    buffer.getD 0 0#8 = 0#8 ↔ q = [] := by
  rw [h.head]
  cases q with
  | nil => simp
  | cons x q => simpa using h.ne_zero x (by simp)

/-- What the status says between the events. -/
structure UartLog.StatusInv (log : UartLog) : Prop where
  flag : log.IsRxfe ↔ log.begun = true ∧ ¬log.Waiting
  waiting : log.Waiting → log.begun = true
  raised : log.InterruptRaised
  cleared_le : log.cleared ≤ log.accepted.length

section Steps

variable {log log' : UartLog} {q : List (BitVec 8)}

theorem UartTrace.accept_length {t : UartTrace} (h : t.Inv q) (data : BitVec 8) :
    (t.accept data).length = if q.length < 4 then t.accepted.length + 1 else t.accepted.length := by
  have hroom : t.accepted.length - t.received.length = q.length := by
    rw [h.length_accepted]
    omega
  rw [UartTrace.accept, hroom]
  split_ifs
  · rw [List.length_append, List.length_singleton]
  · rfl

/-- A push. -/
theorem UartLog.StatusInv.push (h : log.StatusInv) (hq : log.toUartTrace.Inv q) {data : BitVec 8}
    {distributor : GicDistributorMmio} {cpu : Cpu} {r : Pl011Mmio × GicDistributorMmio × Cpu}
    (hpush : log.uart.push data distributor cpu = .ok r) (hrep : log.Reported) :
    StatusInv ⟨{ log.toUartTrace with uart := r.1, accepted := log.accept data }, log.cleared,
      true⟩ := by
  obtain ⟨hflag, hris⟩ := Pl011Mmio.status_push hpush
  have hlen := UartTrace.accept_length hq data
  have hacc := hq.length_accepted
  have hwaiting : UartTrace.Waiting { log.toUartTrace with uart := r.1, accepted := log.accept data } := by
    change log.received.length < (log.accept data).length
    rw [hlen]
    split_ifs <;> omega
  have hle : log.accepted.length ≤ (log.accept data).length := by
    rw [hlen]
    split_ifs <;> omega
  refine ⟨?_, fun _ => rfl, fun hsince => ?_, h.cleared_le.trans hle⟩
  · refine iff_of_false (fun hset => ?_) fun hnone => hnone.2 hwaiting
    rw [UartTrace.isRxfe_iff] at hset
    exact hset (by rw [hflag, and_not_and_self])
  · rw [UartTrace.isRxris_iff]
    change r.1.rawInterruptStatus &&& uartRisRxris ≠ 0#16
    rw [hris]
    split_ifs with hmask
    · rw [or_and_self]
      decide
    · rw [← UartTrace.isRxris_iff]
      obtain hm | hset | hfull := hrep
      · exact absurd hm hmask
      · exact hset
      · -- without room the byte is not accepted, and an older one is waiting
        refine h.raised ?_
        have hroom : ¬q.length < 4 := fun hlt => hfull (hq.1.last.mpr hlt)
        rw [if_neg hroom] at hlen
        change max log.received.length log.cleared < (log.accept data).length at hsince
        rwa [hlen] at hsince

/-- A read of `UART_DR`, with the last slot free. -/
theorem UartLog.StatusInv.readDr (h : log.StatusInv) (hq : log.toUartTrace.Inv q) (hlast : q.length < 4) :
    StatusInv ⟨{ log.toUartTrace with
      uart := (log.uart.read uartDr).2
      returned := log.returned ++ [(log.uart.read uartDr).1] }, log.cleared, true⟩ := by
  have hq' := hq.readDr hlast
  have hwaiting := hq'.waiting_iff
  have hhead := (hq.1.shiftBytes hlast).head_eq_zero
  have hread : log.uart.read uartDr = log.uart.readDr := if_pos rfl
  rw [hread] at hq' hwaiting ⊢
  by_cases hnil : q.tail = []
  · refine ⟨?_, fun _ => rfl, fun hsince => ?_, h.cleared_le⟩
    · refine iff_of_true ?_ ⟨rfl, fun hw => hwaiting.mp hw hnil⟩
      rw [UartTrace.isRxfe_iff]
      change log.uart.readDr.2.flag &&& uartFrRxfe ≠ 0#16
      rw [Pl011Mmio.status_readDr_empty (hhead.mpr hnil), or_and_self]
      decide
    · exact absurd hnil (hwaiting.mp (lt_of_le_of_lt (le_max_left _ _) hsince))
  · obtain ⟨hflag, hris⟩ := Pl011Mmio.status_readDr fun h0 => hnil (hhead.mp h0)
    have hne : q ≠ [] := fun h0 => hnil (by rw [h0]; rfl)
    refine ⟨?_, fun _ => rfl, fun hsince => ?_, h.cleared_le⟩
    · refine iff_of_false (fun hset => ?_) fun hnone => hnone.2 (hwaiting.mpr hnil)
      rw [UartTrace.isRxfe_iff] at hset
      change log.uart.readDr.2.flag &&& uartFrRxfe ≠ 0#16 at hset
      rw [hflag, ← UartTrace.isRxfe_iff] at hset
      exact (h.flag.mp hset).2 (hq.waiting_iff.mpr hne)
    · rw [UartTrace.isRxris_iff]
      change log.uart.readDr.2.rawInterruptStatus &&& uartRisRxris ≠ 0#16
      rw [hris, ← UartTrace.isRxris_iff]
      have hacc := hq.length_accepted
      have hpos := List.length_pos_iff.mpr hne
      have hcleared := lt_of_le_of_lt (le_max_right _ _) hsince
      exact h.raised (max_lt (by omega) hcleared)

/-- A write. -/
theorem UartLog.StatusInv.write (h : log.StatusInv) (offset accessWidth : ℕ) (value : BitVec 64) :
    StatusInv ⟨{ log.toUartTrace with uart := (log.uart.write offset value).2 },
      if (UartEvent.write offset accessWidth value).clears then log.accepted.length else log.cleared,
      log.begun⟩ := by
  obtain ⟨hflag, hris⟩ := Pl011Mmio.status_write log.uart offset value
  refine ⟨?_, h.waiting, fun hsince => ?_, ?_⟩
  · rw [UartTrace.isRxfe_iff]
    change (log.uart.write offset value).2.flag &&& uartFrRxfe ≠ 0#16 ↔ _
    rw [hflag, ← UartTrace.isRxfe_iff]
    exact h.flag
  · change max log.received.length _ < log.accepted.length at hsince
    have hcleared := lt_of_le_of_lt (le_max_right _ _) hsince
    split_ifs at hcleared hsince with hclears
    · exact absurd hcleared (lt_irrefl _)
    · have hset := h.raised hsince
      rw [UartTrace.isRxris_iff] at hset ⊢
      change (log.uart.write offset value).2.rawInterruptStatus &&& uartRisRxris ≠ 0#16
      rw [hris]
      split_ifs with hicr
      · have hkeep : value.setWidth 16 &&& uartRisRxris = 0#16 := by
          by_contra hne
          exact hclears (by simp [UartEvent.clears, hicr, hne])
        rw [and_not_and_of_disjoint _ hkeep]
        exact hset
      · exact hset
  · change (if _ then _ else _) ≤ log.accepted.length
    split_ifs
    · exact le_rfl
    · exact h.cleared_le

theorem UartLog.StatusInv.exec (h : log.StatusInv) (hq : log.toUartTrace.Inv q) {e : UartEvent}
    (hc : StatusKept log e) (he : log.exec e = .ok log') : log'.StatusInv := by
  simp only [UartLog.exec, Exec.bind_eq_ok] at he
  obtain ⟨t, ht, he⟩ := he
  obtain rfl := Except.ok.inj he
  cases e with
  | push data distributor cpu =>
    simp only [UartTrace.exec, Exec.bind_eq_ok] at ht
    obtain ⟨r, hpush, ht⟩ := ht
    obtain rfl := Except.ok.inj ht
    have := h.push hq hpush (hc.2 rfl)
    simpa [UartEvent.clears, UartEvent.movesBytes] using this
  | read offset accessWidth =>
    obtain rfl := Except.ok.inj ht
    by_cases hdr : offset = uartDr
    · subst hdr
      have := h.readDr hq (hq.1.last.mp (hc.1 rfl))
      simpa [UartEvent.clears, UartEvent.movesBytes] using this
    · have hread : log.uart.read offset = (log.uart.readRegister offset, log.uart) := if_neg hdr
      have hdr' : (offset == uartDr) = false := beq_eq_false_iff_ne.mpr hdr
      simpa [UartEvent.clears, UartEvent.movesBytes, hdr, hdr', hread] using h
  | write offset accessWidth value =>
    obtain rfl := Except.ok.inj ht
    have := h.write offset accessWidth value
    simpa [UartEvent.movesBytes] using this

theorem UartLog.exec_inv {e : UartEvent} (he : log.exec e = .ok log') :
    log.toUartTrace.exec e = .ok log'.toUartTrace ∧
      log'.begun = (log.begun || e.movesBytes) := by
  simp only [UartLog.exec, Exec.bind_eq_ok] at he
  obtain ⟨t, ht, he⟩ := he
  obtain rfl := Except.ok.inj he
  exact ⟨ht, rfl⟩

theorem uartLogRun_invariant (h : UartLogRun StatusKept log) :
    log.StatusInv ∧ ∃ q, log.toUartTrace.Inv q := by
  induction h with
  | new =>
    have hrxfe : ¬UartLog.new.IsRxfe := fun hset => UartTrace.isRxfe_iff.mp hset rfl
    have hwaiting : ¬UartLog.new.Waiting := Nat.not_lt_zero _
    exact ⟨⟨iff_of_false hrxfe fun hbegun => absurd hbegun.1 (by decide), fun h => absurd h hwaiting,
      fun h => absurd (lt_of_le_of_lt (le_max_left _ _) h) hwaiting, le_rfl⟩, [],
      ⟨by simp, by simp, rfl⟩, rfl⟩
  | step e _ hdata hc he ih =>
    obtain ⟨hstatus, q, hq⟩ := ih
    exact ⟨hstatus.exec hq hc he, hq.exec hdata hc.1 (UartLog.exec_inv he).1⟩

end Steps

/-- Reads of `UART_DR`, with the last slot free. -/
theorem UartLog.StatusInv.readMany : ∀ (n : ℕ) {log : UartLog} {q : List (BitVec 8)}, log.StatusInv →
    log.toUartTrace.Inv q → q.length < 4 → ∃ log' : UartLog,
      UartTrace.readMany n log.toUartTrace = .ok log'.toUartTrace ∧ log'.StatusInv ∧
        log'.begun = (log.begun || decide (0 < n))
  | 0, log, _, h, _, _ => ⟨log, rfl, h, by simp⟩
  | n + 1, log, q, h, hq, hlast => by
    obtain ⟨log', hread, h', hbegun⟩ := readMany n (h.readDr hq hlast) (hq.readDr hlast)
      (by rw [List.length_tail]; omega)
    exact ⟨log', hread, h', by rw [hbegun]; simp⟩

theorem UartLog.StatusInv.flagExact_iff {log : UartLog} (h : log.StatusInv) :
    log.FlagExact ↔ log.begun = true := by
  rw [UartTrace.FlagExact, h.flag]
  constructor
  · intro hexact
    by_contra hbegun
    exact hbegun (hexact.mpr fun hw => hbegun (h.waiting hw)).1
  · intro hbegun
    exact and_iff_right hbegun

/-- A full buffer is never reported as empty again. -/
theorem UartTrace.not_flagExact_full {t t' : UartTrace} {q : List (BitVec 8)} (hq : t.Inv q)
    (hfull : q.length = 4) (hrxfe : ¬t.IsRxfe) (hsent : t'.sent = t.sent)
    (hlen : t'.received.length = t.received.length + 5) (hflag : t'.uart.flag = t.uart.flag) :
    ¬t'.FlagExact := by
  intro hexact
  have hacc := hq.length_accepted
  have hsame : t'.accepted.length = t.accepted.length := by
    simpa [UartTrace.sent] using congrArg List.length hsent
  have hset : t'.IsRxfe := hexact.mpr fun hw => by
    change t'.received.length < t'.accepted.length at hw
    omega
  rw [UartTrace.isRxfe_iff, hflag, ← UartTrace.isRxfe_iff] at hset
  exact hrxfe hset

/-- Only a reported push keeps RXRIS right. -/
theorem UartLog.StatusInv.push_iff {log log' : UartLog} {q : List (BitVec 8)} (h : log.StatusInv)
    (hq : log.toUartTrace.Inv q) {data : BitVec 8} {distributor : GicDistributorMmio} {cpu : Cpu}
    (he : log.exec (.push data distributor cpu) = .ok log') : log'.InterruptRaised ↔ log.Reported := by
  simp only [UartLog.exec, UartTrace.exec, Exec.bind_eq_ok] at he
  obtain ⟨t, ⟨r, hpush, ht⟩, he⟩ := he
  obtain rfl := Except.ok.inj ht
  obtain rfl := Except.ok.inj he
  constructor
  · intro hraised
    by_contra hrep
    simp only [UartLog.Reported, not_or, not_not] at hrep
    obtain ⟨hmask, hclear, hlast⟩ := hrep
    have hlen := UartTrace.accept_length hq data
    rw [if_pos (hq.1.last.mp hlast)] at hlen
    have hacc := hq.length_accepted
    have hcleared := h.cleared_le
    have hset := hraised (by
      change max log.received.length log.cleared < (log.accept data).length
      omega)
    rw [UartTrace.isRxris_iff] at hset hclear
    refine hset ?_
    change r.1.rawInterruptStatus &&& uartRisRxris = 0#16
    rw [(Pl011Mmio.status_push hpush).2, if_neg (not_not.mpr hmask)]
    exact not_not.mp hclear
  · intro hrep
    simpa [UartEvent.clears, UartEvent.movesBytes] using (h.push hq hpush hrep).raised

/-- The status registers, in every run in which reads of `UART_DR` find the last slot free and pushes are
reported. RXRIS is set if a byte is waiting that has arrived since the interrupt was cleared, and RXFE says
whether a byte is waiting as soon as a byte was pushed or read. From each state of such a run RXFE is right
after five reads exactly if the last slot is free, and RXRIS after a push exactly if it is reported. -/
theorem uartLogRun_status {log : UartLog} (h : UartLogRun StatusKept log) :
    (log.FlagExact ↔ log.begun = true) ∧ log.InterruptRaised ∧
    (∃ t', UartTrace.readMany 5 log.toUartTrace = .ok t' ∧
      (t'.FlagExact ↔ log.uart.readBuffer.getD 3 0#8 = 0#8)) ∧
    ∀ data distributor cpu log', log.exec (.push data distributor cpu) = .ok log' →
      (log'.InterruptRaised ↔ log.Reported) := by
  obtain ⟨hstatus, q, hq⟩ := uartLogRun_invariant h
  refine ⟨hstatus.flagExact_iff, hstatus.raised, ?_, fun _ _ _ _ he => hstatus.push_iff hq he⟩
  rw [hq.1.last]
  by_cases hlast : q.length < 4
  · obtain ⟨log', hread, h', hbegun⟩ := hstatus.readMany 5 hq hlast
    exact ⟨_, hread, iff_of_true (h'.flagExact_iff.mpr (by rw [hbegun]; simp)) hlast⟩
  · have hfull : q.length = 4 := by
      have := hq.1.le
      omega
    have hne : q ≠ [] := fun h0 => by rw [h0] at hfull; exact absurd hfull (by decide)
    have hrxfe : ¬log.IsRxfe := fun hset => (hstatus.flag.mp hset).2 (hq.waiting_iff.mpr hne)
    obtain ⟨t', hread, hsent, hlen, hflag⟩ := UartTrace.readMany_full 5 hq.1 hfull
    exact ⟨t', hread,
      iff_of_false (UartTrace.not_flagExact_full hq hfull hrxfe hsent hlen hflag) hlast⟩

/-- The interrupt is unmasked, and a byte is pushed and read; a second one is pushed behind it. -/
theorem uartLogRun_status_reads : ∃ log, UartLogRun StatusKept log ∧ log.returned = [0x41] ∧
    log.accepted = [0x41, 0x42] ∧ log.FlagExact ∧ log.InterruptRaised := by
  have push (x : BitVec 8) (hx : x ≠ 0#8) {log log' : UartLog} (h : UartLogRun StatusKept log)
      (hrep : log.Reported) (he : log.exec (.push x .new idleCpu) = .ok log') : UartLogRun
      StatusKept log' :=
    h.step (.push x .new idleCpu) hx ⟨trivial, fun _ => hrep⟩ he
  have himsc := (UartLogRun.new (C := StatusKept)).step (.write uartImsc 32 0x10) trivial
      ⟨trivial, nofun⟩ rfl
  have hpush := push 0x41 (by decide) himsc (.inl (by decide)) rfl
  have hread := hpush.step (.read uartDr 32) trivial ⟨fun _ => by decide, nofun⟩ rfl
  have hpush' := push 0x42 (by decide) hread (.inl (by decide)) rfl
  have hstatus := uartLogRun_status hpush'
  exact ⟨_, hpush', rfl, rfl, hstatus.1.mpr rfl, hstatus.2.1⟩

/-- RXFE is clear before anything has happened, and a byte that arrives before the guest has unmasked the
interrupt is not reported. -/
theorem uartLogRun_not_status : ¬UartLog.new.FlagExact ∧ ∃ log log' : UartLog,
    UartLog.new.exec (.push 0x41 .new idleCpu) = .ok log ∧
    log.exec (.write uartImsc 32 0x10) = .ok log' ∧ log'.WaitingSince ∧ ¬log'.IsRxris := by
  refine ⟨fun hexact => ?_, _, _, rfl, rfl, ?_, ?_⟩
  · exact absurd (hexact.mpr (Nat.lt_irrefl 0)) (by unfold UartTrace.IsRxfe; decide)
  · unfold UartLog.WaitingSince
    decide
  · unfold UartTrace.IsRxris
    decide

end MiniVisor
