import MiniVisor.GicDriver
import MiniVisor.GicRun

/-!
# Registers read back what was written

`read` and `write` of the two controllers find a register in two case analyses of the offset and the
width. A `RegisterPart` is what an access names : a register of an array, or a byte of it. `part` is
the decoding that both case analyses of the distributor follow (`read_eq`, `write_wroteTo`). A write
stores its value, or sets or clears bits; what it triggers is pending already, so no other register
changes (`scan_register`), and a register reads back what was written to it whenever the write
returns (`readsBack_iff`). -/

namespace MiniVisor

open Machine Vgic

/-! ## Parts of registers -/

/-- A register of an array, or a byte of it. -/
structure RegisterPart (ρ : Type) where
  array : ρ
  index : ℕ
  byte : Option (Fin 4)

/-- The byte of a word at an offset. -/
abbrev byteOf (offset : ℕ) : Fin 4 :=
  Fin.ofNat 4 offset

/-- The parts have nothing in common. -/
def RegisterPart.Apart {ρ : Type} (p q : RegisterPart ρ) : Prop :=
  ¬(p.array = q.array ∧ p.index = q.index) ∨
    ∃ b c, p.byte = some b ∧ q.byte = some c ∧ b ≠ c

/-- The value of a part, given the values of the registers. -/
def RegisterPart.value {ρ : Type} (registers : ρ → ℕ → BitVec 64) (p : RegisterPart ρ) : BitVec 64 :=
  match p.byte with
  | none => registers p.array p.index
  | some b => (registers p.array p.index >>> (b.val * 8)) &&& 0xff#64

/-- The registers are the same except for one part, which has the value `x`. -/
def Stores {ρ : Type} (registers registers' : ρ → ℕ → BitVec 64) (p : RegisterPart ρ)
    (x : BitVec 64) : Prop :=
  p.value registers' = x ∧ ∀ q : RegisterPart ρ, q.Apart p → q.value registers' = q.value registers

/-- After a write, the part it names reads as `f` says, wherever it is read, and a part that is
apart from it reads as before. -/
structure ReadsBack {δ ρ : Type} (read : δ → ℕ → ℕ → Exec (BitVec 64))
    (part readPart : ℕ → ℕ → Option (RegisterPart ρ)) (d d' : δ) (offset accessWidth : ℕ)
    (f : BitVec 64 → BitVec 64) : Prop where
  same : ∃ x, (read d offset accessWidth = .ok x ∧ read d' offset accessWidth = .ok (f x)) ∧
    ∀ offset' w', readPart offset' w' = part offset accessWidth →
      read d offset' w' = .ok x ∧ read d' offset' w' = .ok (f x)
  others : ∀ offset' w', (∀ p q, part offset accessWidth = some p → readPart offset' w' = some q →
    q.Apart p) → read d' offset' w' = read d offset' w'

section Parts

variable {ρ : Type} {registers registers' : ρ → ℕ → BitVec 64} {r : ρ} {i : ℕ} {x : BitVec 64}

/-- A whole register is stored. -/
theorem stores_register (hx : registers' r i = x)
    (hother : ∀ s j, ¬(s = r ∧ j = i) → registers' s j = registers s j) :
    Stores registers registers' ⟨r, i, none⟩ x := by
  refine ⟨hx, fun q hq => ?_⟩
  have hne : ¬(q.array = r ∧ q.index = i) := by
    rcases hq with hq | ⟨b, c, -, hc, -⟩
    · exact hq
    · cases hc
  rw [RegisterPart.value, RegisterPart.value, hother _ _ hne]

/-- A value that fits 32 bits. -/
theorem setWidth_narrow {v : BitVec 64} (hv : v.toNat < 2 ^ 32) : (v.setWidth 32).setWidth 64 = v := by
  apply BitVec.eq_of_toNat_eq
  rw [BitVec.toNat_setWidth, BitVec.toNat_setWidth, Nat.mod_eq_of_lt hv, Nat.mod_eq_of_lt v.isLt]

theorem setWidth_or_narrow {v : BitVec 64} (hv : v.toNat < 2 ^ 32) (u : BitVec 32) :
    (u ||| v.setWidth 32).setWidth 64 = u.setWidth 64 ||| v := by
  rw [BitVec.setWidth_or, setWidth_narrow hv]

theorem setWidth_and_not (u : BitVec 32) (v : BitVec 64) :
    (u &&& ~~~(v.setWidth 32)).setWidth 64 = u.setWidth 64 &&& ~~~v := by
  refine BitVec.eq_of_getLsbD_eq fun i hi => ?_
  simp only [BitVec.getLsbD_setWidth, BitVec.getLsbD_and, BitVec.getLsbD_not]
  by_cases h32 : i < 32
  · simp [h32, hi]
  · simp [h32, BitVec.getLsbD_of_ge u i (by omega)]

/-- A byte of a register of 32 bits, read as 64 bits. -/
theorem byte_setWidth (u : BitVec 32) (k : ℕ) :
    (u.setWidth 64 >>> k) &&& 0xff#64 = ((u >>> k) &&& 0xFF#32).setWidth 64 := by
  rw [BitVec.setWidth_and]
  congr 1

/-- A byte of a register of 32 bits is stored. -/
theorem stores_byte {n : ℕ} {B : Bank n 32} {b : Fin 4} {v : BitVec 64} (hv : v.toNat < 2 ^ 8)
    (hold : ∀ j, registers r j = (B.reg j).setWidth 64)
    (hnew : ∀ j, registers' r j = ((B.update i ((B.reg i &&& ~~~(0xFF#32 <<< (b.val * 8))) |||
      (v <<< (b.val * 8)).setWidth 32)).reg j).setWidth 64)
    (hother : ∀ s, s ≠ r → registers' s = registers s) :
    Stores registers registers' ⟨r, i, some b⟩ v := by
  have hu := hold i
  have hx := hnew i
  rw [Bank.update_reg_self] at hx
  generalize B.reg i = u at hu hx
  have hreplace : (u &&& ~~~(0xFF#32 <<< (b.val * 8))) ||| (v <<< (b.val * 8)).setWidth 32 =
      GicDistributor.replaceField u 0xFF#32 (b.val * 8) (v.setWidth 32) := by
    rw [GicDistributor.replaceField]
    congr 1
    ext t ht
    simp only [BitVec.getElem_setWidth, BitVec.getLsbD_shiftLeft, BitVec.getElem_shiftLeft]
    by_cases h : t < b.val * 8
    · simp [h]
    · simp [h, show t < 64 by omega]
  have hmask : ∀ t, (0xFF#32).getLsbD t = decide (t < 8) := by
    rw [show 0xFF#32 = (1#32 <<< 8) - 1#32 by decide]
    exact getLsbD_lowMask (by decide)
  have hbyte : ∀ t, 8 ≤ t → (v.setWidth 32).getLsbD t = false := fun t ht => by
    rw [BitVec.getLsbD_setWidth, BitVec.getLsbD, Nat.testBit_lt_two_pow
      (hv.trans_le (Nat.pow_le_pow_right (by decide) ht)), Bool.and_false]
  have hfield := fun c : Fin 4 => shiftRight_setField (w := 8) (r := u) (k := b.val * 8)
    (j := c.val * 8) hmask hbyte (by omega) (by omega) (by omega)
  rw [hreplace] at hx
  constructor
  · change (registers' r i >>> (b.val * 8)) &&& 0xff#64 = v
    rw [hx, byte_setWidth, hfield b, if_pos rfl, setWidth_narrow (hv.trans (by decide))]
  · rintro ⟨s, j, c⟩ hq
    by_cases hsame : s = r ∧ j = i
    · obtain ⟨rfl, rfl⟩ := hsame
      obtain ⟨c, b', rfl, hb', hcb⟩ := hq.resolve_left fun h => h ⟨rfl, rfl⟩
      obtain rfl := Option.some.inj hb'
      change (registers' s j >>> (c.val * 8)) &&& 0xff#64 = (registers s j >>> (c.val * 8)) &&& 0xff#64
      rw [hx, hu, byte_setWidth, byte_setWidth, hfield c, if_neg (by omega)]
    · have hsj : registers' s j = registers s j := by
        by_cases hs : s = r
        · subst hs
          rw [hnew, hold, Bank.update_reg_of_ne B fun hj => hsame ⟨rfl, hj⟩]
        · rw [hother s hs]
      rw [RegisterPart.value, RegisterPart.value, hsj]

/-- A register of a bank of 32 bits is stored. -/
theorem stores_bank {n : ℕ} {B : Bank n 32} {u : BitVec 32}
    (hold : ∀ j, registers r j = (B.reg j).setWidth 64)
    (hnew : ∀ j, registers' r j = ((B.update i u).reg j).setWidth 64)
    (hother : ∀ s, s ≠ r → registers' s = registers s) (hx : u.setWidth 64 = x) :
    Stores registers registers' ⟨r, i, none⟩ x := by
  refine stores_register ?_ fun s j hne => ?_
  · rw [hnew, Bank.update_reg_self, hx]
  · by_cases hs : s = r
    · subst hs
      rw [hnew, hold, Bank.update_reg_of_ne B fun hj => hne ⟨rfl, hj⟩]
    · rw [hother s hs]

/-- A run of one case of a function, and the same case of a decoding. -/
theorem ok_branch {α β : Type} {c : Prop} [Decidable c] {y z : Exec β} {b : β} {p q : α}
    {F : α → Prop} (h : (if c then y else z) = .ok b) (hy : c → y = .ok b → F p)
    (hz : ¬c → z = .ok b → F q) : F (if c then p else q) := by
  split_ifs at h ⊢ with hc
  · exact hy hc h
  · exact hz hc h

/-- A register without an index is stored. -/
theorem stores_single (hx : registers' r 0 = x) (hzero : ∀ j, j ≠ 0 → registers' r j = registers r j)
    (hother : ∀ s, s ≠ r → registers' s = registers s) : Stores registers registers' ⟨r, 0, none⟩ x := by
  refine stores_register hx fun s j hne => ?_
  by_cases hs : s = r
  · subst hs
    exact hzero j fun hj => hne ⟨rfl, hj⟩
  · rw [hother s hs]

/-- The case of a decoding that gave this result. -/
theorem eq_branch {α : Type} {c : Prop} [Decidable c] {x y z : α} {Q : Prop}
    (h : (if c then x else y) = z) (hx : c → x = z → Q) (hy : ¬c → y = z → Q) : Q := by
  split_ifs at h with hc
  · exact hx hc h
  · exact hy hc h

/-- One case of a decoding. -/
theorem branch {α β : Type} {c : Prop} [Decidable c] {x y : β} {p q : α} (f : α → β)
    (hx : c → x = f p) (hy : ¬c → y = f q) : (if c then x else y) = f (if c then p else q) := by
  split_ifs with h
  · exact hx h
  · exact hy h

end Parts

/-! ## Distributor -/

inductive DistributorArray
  | ctlr
  | group
  | enable
  | pending
  | active
  | priority
  | configuration
  | groupModifier
  | router
  deriving DecidableEq

instance (offset w : ℕ) : Decidable (DistributorAccess.PastGroupModifiers offset w) :=
  inferInstanceAs (Decidable (_ ∧ _ ∧ _))

namespace GicDistributorMmio

/-- The registers. -/
def register (d : GicDistributorMmio) : DistributorArray → ℕ → BitVec 64
  | .ctlr, i => if i = 0 then d.ctlr.setWidth 64 else 0#64
  | .group, i => (d.group.reg i).setWidth 64
  | .enable, i => (d.enable.reg i).setWidth 64
  | .pending, i => (d.pending.reg i).setWidth 64
  | .active, i => (d.active.reg i).setWidth 64
  | .priority, i => (d.priority.reg i).setWidth 64
  | .configuration, i => (d.configuration.reg i).setWidth 64
  | .groupModifier, i => (d.groupModifier.reg i).setWidth 64
  | .router, i => d.router.reg i

/-- What an access to a writable register names. -/
def part (offset accessWidth : ℕ) : Option (RegisterPart DistributorArray) :=
  if offset = gicdCtlr ∧ accessWidth = 32 then some ⟨.ctlr, 0, none⟩
  else if inWindow gicdIgroupr0 gicdIgroupr31 offset ∧ accessWidth = 32 then
    some ⟨.group, (offset - gicdIgroupr0) / 4, none⟩
  else if inWindow gicdIsenabler0 gicdIsenabler31 offset ∧ accessWidth = 32 then
    some ⟨.enable, (offset - gicdIsenabler0) / 4, none⟩
  else if inWindow gicdIcenabler0 gicdIcenabler31 offset ∧ accessWidth = 32 then
    some ⟨.enable, (offset - gicdIcenabler0) / 4, none⟩
  else if inWindow gicdIspendr0 gicdIspendr31 offset ∧ accessWidth = 32 then
    some ⟨.pending, (offset - gicdIspendr0) / 4, none⟩
  else if inWindow gicdIcpendr0 gicdIcpendr31 offset ∧ accessWidth = 32 then
    some ⟨.pending, (offset - gicdIcpendr0) / 4, none⟩
  else if inWindow gicdIsactiver0 gicdIsactiver31 offset ∧ accessWidth = 32 then
    some ⟨.active, (offset - gicdIsactiver0) / 4, none⟩
  else if inWindow gicdIcactiver0 gicdIcactiver31 offset ∧ accessWidth = 32 then
    some ⟨.active, (offset - gicdIcactiver0) / 4, none⟩
  else if gicdIpriorityr0 ≤ offset ∧ offset < gicdIpriorityr254 + 4 then
    if accessWidth = 8 then
      some ⟨.priority, (offset - gicdIpriorityr0) / 4, some (Fin.ofNat 4 (offset - gicdIpriorityr0))⟩
    else if (offset - gicdIpriorityr0) % 4 = 0 ∧ accessWidth = 32 then
      some ⟨.priority, (offset - gicdIpriorityr0) / 4, none⟩
    else none
  else if inWindow gicdIcfgr0 gicdIcfgr63 offset ∧ accessWidth = 32 then
    some ⟨.configuration, (offset - gicdIcfgr0) / 4, none⟩
  else if inWindow gicdIgrpmodr0 gicdIgrpmodr31 offset ∧ accessWidth = 32 then
    some ⟨.groupModifier, (offset - gicdIgrpmodr0) / 4, none⟩
  else if inWindow gicdIrouter0 gicdIrouter1019 offset ∧ accessWidth = 64 then
    some ⟨.router, (offset - gicdIrouter0) / 8, none⟩
  else none

/-- What a register that held `x` holds after a write of `v`. -/
def written (offset : ℕ) (x v : BitVec 64) : BitVec 64 :=
  if inWindow gicdIsenabler0 gicdIsenabler31 offset ∨ inWindow gicdIspendr0 gicdIspendr31 offset ∨
    inWindow gicdIsactiver0 gicdIsactiver31 offset then x ||| v
  else if inWindow gicdIcenabler0 gicdIcenabler31 offset ∨
    inWindow gicdIcpendr0 gicdIcpendr31 offset ∨ inWindow gicdIcactiver0 gicdIcactiver31 offset then
    x &&& ~~~v
  else v

/-- What a read returns where `part` names `p`. -/
def readOf (d : GicDistributorMmio) (offset accessWidth : ℕ) :
    Option (RegisterPart DistributorArray) → Exec (BitVec 64)
  | some p =>
    if DistributorAccess.PastGroupModifiers offset accessWidth then .error .outOfBounds
    else .ok (p.value d.register)
  | none => .ok (if offset = gicdTyper ∧ accessWidth = 32 then gicdTyperValue.setWidth 64
      else if offset = gicdPidr2 ∧ accessWidth = 32 then gicRevision <<< 4 else 0#64)

variable {d d' : GicDistributorMmio} {cpu cpu' : Cpu} {offset w : ℕ} {v : BitVec 64}

theorem readOf_some {p : RegisterPart DistributorArray}
    (h : ¬DistributorAccess.PastGroupModifiers offset w) :
    d.readOf offset w (some p) = .ok (p.value d.register) :=
  if_neg h

/-- `read` follows `part`, as long as there is a register. -/
theorem read_eq (d : GicDistributorMmio) (offset w : ℕ) :
    d.read offset w = d.readOf offset w (part offset w) := by
  have early (h : offset < 0xD80) : ¬DistributorAccess.PastGroupModifiers offset w :=
    fun hpast => absurd hpast.2.1 (not_le.mpr h)
  have word {n : ℕ} (b : Bank n 32) {lo hi : ℕ} {a : DistributorArray}
      (ha : ∀ i, d.register a i = (b.reg i).setWidth 64) (h : inWindow lo hi offset)
      (hn : (hi - lo) / 4 < n) (hhi : hi < 0xD80) :
      (b.get ((offset - lo) / 4) >>= fun r => pure (r.setWidth 64)) =
        d.readOf offset w (some ⟨a, (offset - lo) / 4, none⟩) := by
    rw [Bank.get_of_lt (DistributorAccess.index_lt h hn), readOf_some (early (h.2.trans_lt hhi))]
    exact congrArg _ (ha _).symm
  have constant (h : offset ≠ gicdPidr2) (htyper : ¬(offset = gicdTyper ∧ w = 32)) :
      d.readOf offset w none = .ok 0#64 := by
    rw [readOf, if_neg htyper, if_neg fun hc => h hc.1]
  unfold read part
  refine branch (d.readOf offset w) (fun h => ?_) fun _ => ?_
  · rw [readOf_some (early (h.1.trans_lt (by decide)))]
    rfl
  by_cases htyper : offset = gicdTyper ∧ w = 32
  · obtain ⟨rfl, rfl⟩ := htyper
    rfl
  rw [if_neg htyper]
  refine branch _ (fun h => word d.group (fun _ => rfl) h.1 (by decide) (by decide)) fun _ => ?_
  refine branch _ (fun h => word d.enable (fun _ => rfl) h.1 (by decide) (by decide)) fun _ => ?_
  refine branch _ (fun h => word d.enable (fun _ => rfl) h.1 (by decide) (by decide)) fun _ => ?_
  refine branch _ (fun h => word d.pending (fun _ => rfl) h.1 (by decide) (by decide)) fun _ => ?_
  refine branch _ (fun h => word d.pending (fun _ => rfl) h.1 (by decide) (by decide)) fun _ => ?_
  refine branch _ (fun h => word d.active (fun _ => rfl) h.1 (by decide) (by decide)) fun _ => ?_
  refine branch _ (fun h => word d.active (fun _ => rfl) h.1 (by decide) (by decide)) fun _ => ?_
  refine branch _ (fun h => ?_) fun _ => ?_
  · have hi : (offset - gicdIpriorityr0) / 4 < 255 := by
      simp only [gicdIpriorityr0, gicdIpriorityr254] at h ⊢
      omega
    have hpast := early (h.2.trans_le (by decide))
    have hbyte : offset - gicdIpriorityr0 - (offset - gicdIpriorityr0) / 4 * 4 =
        (offset - gicdIpriorityr0) % 4 := by omega
    dsimp only
    rw [hbyte, Bank.get_of_lt hi]
    refine branch _ (fun _ => ?_) fun _ => ?_
    · rw [readOf_some hpast]
      rfl
    refine branch _ (fun _ => ?_) fun _ => ?_
    · rw [readOf_some hpast]
      rfl
    exact (constant (by rintro rfl; exact absurd h.2 (by decide)) htyper).symm
  refine branch _ (fun h => word d.configuration (fun _ => rfl) h.1 (by decide) (by decide)) fun _ => ?_
  refine branch _ (fun h => ?_) fun hg => ?_
  · dsimp only
    by_cases hi : (offset - gicdIgrpmodr0) / 4 < 32
    · have hpast : ¬DistributorAccess.PastGroupModifiers offset w := fun hpast => by
        have := hpast.2.1
        simp only [gicdIgrpmodr0] at hi
        omega
      rw [Bank.get_of_lt hi, readOf_some hpast]
      rfl
    · have hpast : DistributorAccess.PastGroupModifiers offset w := by
        refine ⟨h.2, ?_, h.1.2⟩
        simp only [gicdIgrpmodr0] at hi
        omega
      rw [Bank.get_of_le (not_lt.mp hi)]
      exact (if_pos hpast).symm
  have hpast : ¬DistributorAccess.PastGroupModifiers offset w := by
    rintro ⟨hw, h1, h2⟩
    exact hg ⟨⟨le_trans (by decide) h1, h2⟩, hw⟩
  refine branch _ (fun h => ?_) fun _ => ?_
  · have hi : (offset - gicdIrouter0) / 8 < 1020 := by
      have := h.1
      simp only [gicdIrouter0, gicdIrouter1019] at this ⊢
      omega
    rw [readOf_some hpast, Bank.get_of_lt hi]
    rfl
  · rw [readOf, if_neg htyper]
    exact (apply_ite Except.ok _ _ _).symm

theorem register_lt (d : GicDistributorMmio) {a : DistributorArray} (ha : a ≠ .router) (i : ℕ) :
    (d.register a i).toNat < 2 ^ 32 := by
  have hword : ∀ u : BitVec 32, (u.setWidth 64).toNat < 2 ^ 32 := fun u => by
    rw [BitVec.toNat_setWidth]
    exact (Nat.mod_le _ _).trans_lt u.isLt
  cases a
  case router => exact absurd rfl ha
  case ctlr =>
    rw [register]
    split_ifs
    · exact hword _
    · decide
  all_goals exact hword _

/-- A byte is named by an access of 8 bits, a routing register by one of 64 bits, and every other register
by one of 32 bits. -/
theorem part_width {p : RegisterPart DistributorArray} (hp : part offset w = some p) :
    w = 64 ∨ (w = 32 ∧ p.byte = none ∧ p.array ≠ .router) ∨ (w = 8 ∧ p.byte ≠ none) := by
  unfold part at hp
  iterate 8
    refine eq_branch hp (fun h hp => ?_) fun _ hp => ?_
    · obtain rfl := Option.some.inj hp
      exact .inr (.inl ⟨h.2, rfl, nofun⟩)
  refine eq_branch hp (fun _ hp => ?_) fun _ hp => ?_
  · refine eq_branch hp (fun h hp => ?_) fun _ hp => ?_
    · obtain rfl := Option.some.inj hp
      exact .inr (.inr ⟨h, nofun⟩)
    refine eq_branch hp (fun h hp => ?_) fun _ hp => nomatch hp
    obtain rfl := Option.some.inj hp
    exact .inr (.inl ⟨h.2, rfl, nofun⟩)
  iterate 2
    refine eq_branch hp (fun h hp => ?_) fun _ hp => ?_
    · obtain rfl := Option.some.inj hp
      exact .inr (.inl ⟨h.2, rfl, nofun⟩)
  exact eq_branch hp (fun h _ => .inl h.2) fun _ hp => nomatch hp

/-- What a read returns has its width. -/
theorem read_fits {value : BitVec 64} (h : d.read offset w = .ok value) : value.toNat < 2 ^ w := by
  rw [read_eq] at h
  cases hp : part offset w with
  | some p =>
    rw [hp, readOf] at h
    split_ifs at h
    obtain rfl := Except.ok.inj h
    obtain rfl | ⟨rfl, hbyte, harray⟩ | ⟨rfl, hbyte⟩ := part_width hp
    · exact BitVec.isLt _
    · rw [RegisterPart.value, hbyte]
      exact d.register_lt harray _
    · obtain ⟨b, hb⟩ := Option.ne_none_iff_exists'.mp hbyte
      rw [RegisterPart.value, hb]
      rw [BitVec.toNat_and]
      exact Nat.and_lt_two_pow _ (show (0xff#64).toNat < 2 ^ 8 by decide)
  | none =>
    rw [hp, readOf] at h
    obtain rfl := Except.ok.inj h
    split_ifs with htyper hpidr
    · rw [htyper.2]
      decide
    · rw [hpidr.2]
      decide
    · exact Nat.two_pow_pos w
/-- Making an interrupt pending that is pending changes nothing. -/
theorem setPending_of_pending {n : ℕ} (h : d.pending.bit n = true) : d.setPending n = d := by
  have hreg : d.pending.reg (n / 32) ||| (1#32 <<< (n % 32)) = d.pending.reg (n / 32) := by
    ext i hi
    rw [BitVec.getElem_or, ← BitVec.getLsbD_eq_getElem (x := 1#32 <<< (n % 32)),
      getLsbD_one_shiftLeft (Nat.mod_lt _ (by decide))]
    by_cases hin : i = n % 32
    · subst hin
      have hbit : (d.pending.reg (n / 32))[n % 32] = true := h
      rw [hbit, Bool.true_or]
    · rw [decide_eq_false hin, Bool.or_false]
  rw [setPending, hreg]
  exact congrArg (fun pending => { d with pending := ⟨pending⟩ }) (Function.update_eq_self _ _)

/-- A scan that triggers interrupts only that are pending already changes no register. -/
theorem scan_register {test : GicDistributorMmio → ℕ → Exec Bool} {T : ℕ → Bool} {n : ℕ}
    (h : d.scan test cpu n v = .ok (d', cpu'))
    (htest : ∀ q m, m < 1024 → test { d with toInjectInterrupt := q } m = .ok (T m))
    (hv : v.toNat < 2 ^ 32) (hn : n + 32 ≤ 1024)
    (hpending : ∀ b, v.getLsbD b = true → T (n + b) = true → d.pending.bit (n + b) = true) :
    d'.register = d.register := by
  have hscan := loop_bits (f := scanStep test) (N := 1024)
    (P := fun m => T m = true → d.pending.bit m = true)
    (S := fun m => T m = true → d.TriggerSafe cpu m)
    (I := fun s => (∃ q, s.1 = { d with toInjectInterrupt := q }) ∧ s.2.mpidrEl1 = cpu.mpidrEl1)
    (fun n s => by simp [scanStep]) (fun m v s hm h0 hlow => ?_) (fun m v s hm h0 hlow hP hI => ?_) 32 65
    n v (d, cpu) hv hn (by decide) hpending ⟨⟨_, rfl⟩, rfl⟩
  · obtain ⟨q, rfl⟩ := (hscan.2 _ h).1
    rfl
  · have hskip : scanBit s.1 test s.2 m v = .ok s := if_pos ((and_one_eq_zero v).mpr hlow)
    simp only [scanStep, if_neg h0, hskip, Exec.ok_bind, Exec.pure_eq_ok]
  · obtain ⟨e, c⟩ := s
    obtain ⟨⟨q, rfl⟩, hmpidr⟩ := hI
    have hset : ¬v &&& 1#64 = 0#64 := by simp [and_one_eq_zero, hlow]
    simp only [scanStep, if_neg h0, scanBit, if_neg hset, htest q m hm, Exec.ok_bind]
    cases hT : T m with
    | false => exact .inl ⟨fun hc => absurd hc Bool.false_ne_true, _, ⟨⟨q, rfl⟩, hmpidr⟩, rfl⟩
    | true =>
      have hp : ({ d with toInjectInterrupt := q } : GicDistributorMmio).setPending m =
          { d with toInjectInterrupt := q } := setPending_of_pending (hP hT)
      have hsafe : ({ d with toInjectInterrupt := q } : GicDistributorMmio).TriggerSafe c m ↔
          d.TriggerSafe cpu m := Keeps.triggerSafe_iff ⟨rfl, rfl, rfl, rfl, hmpidr⟩
      have hiff : Exec.Returns (triggerInterrupt { d with toInjectInterrupt := q } c m none) ↔ _ :=
        triggerInterrupt_returns_iff hm none
      cases hrun : triggerInterrupt { d with toInjectInterrupt := q } c m none with
      | error t =>
        rw [hrun] at hiff
        exact .inr ⟨fun hs => Exec.not_returns_error t (hiff.mpr (hsafe.mpr (hs rfl))), t, rfl⟩
      | ok s' =>
        rw [hrun] at hiff
        refine .inl ⟨fun _ => hsafe.mp (hiff.mp ⟨s', rfl⟩), s', ?_, rfl⟩
        obtain ⟨d', c'⟩ := s'
        obtain ⟨-, rfl, rfl⟩ | ⟨-, -, rfl, rfl⟩ | ⟨-, -, -, rfl, rfl⟩ | ⟨-, -, -, rfl, rfl⟩ :=
          triggerInterrupt_cases hrun
        · exact ⟨⟨q, rfl⟩, hmpidr⟩
        · exact ⟨⟨q, hp⟩, hmpidr⟩
        · exact ⟨⟨q, hp⟩, hmpidr⟩
        · exact ⟨⟨_, by rw [hp]⟩, hmpidr⟩

theorem written_set (h : inWindow gicdIsenabler0 gicdIsenabler31 offset ∨
    inWindow gicdIspendr0 gicdIspendr31 offset ∨ inWindow gicdIsactiver0 gicdIsactiver31 offset)
    (x : BitVec 64) : written offset x v = x ||| v :=
  if_pos h

theorem written_clear (h : inWindow gicdIcenabler0 gicdIcenabler31 offset ∨
    inWindow gicdIcpendr0 gicdIcpendr31 offset ∨ inWindow gicdIcactiver0 gicdIcactiver31 offset)
    (x : BitVec 64) : written offset x v = x &&& ~~~v := by
  refine (if_neg ?_).trans (if_pos h)
  simp only [inWindow, gicdIsenabler0, gicdIsenabler31, gicdIcenabler0, gicdIcenabler31, gicdIspendr0,
    gicdIspendr31, gicdIcpendr0, gicdIcpendr31, gicdIsactiver0, gicdIsactiver31, gicdIcactiver0,
    gicdIcactiver31] at h ⊢
  omega

theorem written_plain (h : offset < gicdIsenabler0 ∨ gicdIcactiver31 < offset) (x : BitVec 64) :
    written offset x v = v := by
  simp only [gicdIsenabler0, gicdIcactiver31] at h
  refine (if_neg ?_).trans (if_neg ?_)
  · simp only [inWindow, gicdIsenabler0, gicdIsenabler31, gicdIspendr0, gicdIspendr31, gicdIsactiver0,
      gicdIsactiver31]
    omega
  · simp only [inWindow, gicdIcenabler0, gicdIcenabler31, gicdIcpendr0, gicdIcpendr31, gicdIcactiver0,
      gicdIcactiver31]
    omega

/-- The byte of the priority registers that belongs to interrupt `n`. -/
theorem part_priority {n : ℕ} (hn : n < 1020) :
    part (gicdIpriorityr0 + n) 8 = some ⟨.priority, n / 4, some (Fin.ofNat 4 n)⟩ := by
  have narrow {p : Prop} {k : ℕ} (hk : 8 ≠ k) : ¬(p ∧ 8 = k) := fun h => hk h.2
  have hlast : gicdIpriorityr254 + 4 = gicdIpriorityr0 + 1020 := rfl
  unfold part
  rw [if_neg (narrow (by decide)), if_neg (narrow (by decide)), if_neg (narrow (by decide)),
    if_neg (narrow (by decide)), if_neg (narrow (by decide)), if_neg (narrow (by decide)),
    if_neg (narrow (by decide)), if_neg (narrow (by decide)),
    if_pos ⟨Nat.le_add_right _ _, by omega⟩, if_pos rfl, Nat.add_sub_cancel_left]

/-- What a write has done where `part` names `p`. -/
def WroteTo (d d' : GicDistributorMmio) (offset : ℕ) (v : BitVec 64) :
    Option (RegisterPart DistributorArray) → Prop
  | some p => Stores d.register d'.register p (written offset (p.value d.register) v)
  | none => d'.register = d.register

/-- A write to a priority register or to one of its bytes. -/
theorem writePriority_wroteTo {i : ℕ} {b : Fin 4} (hv : v.toNat < 2 ^ w)
    (ho : gicdIcactiver31 < offset)
    (h : (if w = 8 then do
        let priority ← d.priority.modify i fun r =>
          (r &&& ~~~(0xFF#32 <<< (b.val * 8))) ||| (v <<< (b.val * 8)).setWidth 32
        pure ({ d with priority }, cpu)
      else if b.val = 0 ∧ w = 32 then do
        let priority ← d.priority.set i (v.setWidth 32)
        pure ({ d with priority }, cpu)
      else pure (d, cpu)) = (.ok (d', cpu') : Exec _)) :
    d.WroteTo d' offset v (if w = 8 then some ⟨.priority, i, some b⟩
      else if b.val = 0 ∧ w = 32 then some ⟨.priority, i, none⟩ else none) := by
  refine ok_branch h (fun hw h => ?_) fun _ h => ?_
  · obtain ⟨bank, hb, h⟩ := Exec.bind_eq_ok.mp h
    obtain ⟨-, rfl⟩ := Bank.modify_eq_ok.mp hb
    obtain ⟨rfl, -⟩ := Prod.mk.inj (Except.ok.inj h)
    rw [WroteTo, written_plain (.inr ho)]
    exact stores_byte (B := d.priority) (by rwa [hw] at hv) (fun _ => rfl) (fun _ => rfl)
      fun s hs => by cases s <;> first | rfl | contradiction
  refine ok_branch h (fun hw h => ?_) fun _ h => ?_
  · obtain ⟨bank, hb, h⟩ := Exec.bind_eq_ok.mp h
    obtain ⟨-, rfl⟩ := Bank.set_eq_ok.mp hb
    obtain ⟨rfl, -⟩ := Prod.mk.inj (Except.ok.inj h)
    refine stores_bank (B := d.priority) (fun _ => rfl) (fun _ => rfl)
      (fun s hs => by cases s <;> first | rfl | contradiction) ?_
    rw [written_plain (.inr ho), setWidth_narrow (by rwa [hw.2] at hv)]
  · obtain ⟨rfl, -⟩ := Prod.mk.inj (Except.ok.inj h)
    rfl

/-- `write` follows `part`. -/
theorem write_wroteTo (hv : v.toNat < 2 ^ w) (h : d.write cpu offset w v = .ok (d', cpu')) :
    d.WroteTo d' offset v (part offset w) := by
  have plain (x : BitVec 64) (hw : w = 32)
      (ho : offset < gicdIsenabler0 ∨ gicdIcactiver31 < offset) :
      (v.setWidth 32).setWidth 64 = written offset x v := by
    rw [written_plain ho, setWidth_narrow (by rwa [hw] at hv)]
  have setBits (u : BitVec 32) (hw : w = 32) (ho : inWindow gicdIsenabler0 gicdIsenabler31 offset ∨
      inWindow gicdIspendr0 gicdIspendr31 offset ∨ inWindow gicdIsactiver0 gicdIsactiver31 offset) :
      (u ||| v.setWidth 32).setWidth 64 = written offset (u.setWidth 64) v := by
    rw [written_set ho, setWidth_or_narrow (by rwa [hw] at hv)]
  have clearBits (u : BitVec 32) (ho : inWindow gicdIcenabler0 gicdIcenabler31 offset ∨
      inWindow gicdIcpendr0 gicdIcpendr31 offset ∨ inWindow gicdIcactiver0 gicdIcactiver31 offset) :
      (u &&& ~~~(v.setWidth 32)).setWidth 64 = written offset (u.setWidth 64) v := by
    rw [written_clear ho, setWidth_and_not]
  unfold write at h
  unfold part
  refine ok_branch h (fun ho h => ?_) fun _ h => ?_
  · obtain ⟨rfl, -⟩ := Prod.mk.inj (Except.ok.inj h)
    exact stores_single (plain _ ho.2 (.inl (ho.1.trans_lt (by decide))))
      (fun j hj => by simp only [register, if_neg hj])
      fun s hs => by cases s <;> first | rfl | contradiction
  refine ok_branch h (fun ho h => ?_) fun _ h => ?_
  · obtain ⟨b, hb, h⟩ := Exec.bind_eq_ok.mp h
    obtain ⟨-, rfl⟩ := Bank.set_eq_ok.mp hb
    obtain ⟨rfl, -⟩ := Prod.mk.inj (Except.ok.inj h)
    exact stores_bank (B := d.group) (fun _ => rfl) (fun _ => rfl)
      (fun s hs => by cases s <;> first | rfl | contradiction)
      (plain _ ho.2 (.inl (ho.1.2.trans_lt (by decide))))
  refine ok_branch h (fun ho h => ?_) fun _ h => ?_
  · obtain ⟨b, hb, h⟩ := Exec.bind_eq_ok.mp h
    obtain ⟨hi, rfl⟩ := Bank.modify_eq_ok.mp hb
    have hscan := scan_register (T := fun m => d.pending.bit m) h (fun _ _ hm => getPending_eq hm)
      (by rwa [ho.2] at hv) (by omega) fun _ _ hm => hm
    rw [WroteTo, hscan]
    exact stores_bank (B := d.enable) (fun _ => rfl) (fun _ => rfl)
      (fun s hs => by cases s <;> first | rfl | contradiction) (setBits _ ho.2 (.inl ho.1))
  refine ok_branch h (fun ho h => ?_) fun _ h => ?_
  · obtain ⟨b, hb, h⟩ := Exec.bind_eq_ok.mp h
    obtain ⟨-, rfl⟩ := Bank.modify_eq_ok.mp hb
    obtain ⟨rfl, -⟩ := Prod.mk.inj (Except.ok.inj h)
    exact stores_bank (B := d.enable) (fun _ => rfl) (fun _ => rfl)
      (fun s hs => by cases s <;> first | rfl | contradiction) (clearBits _ (.inl ho.1))
  refine ok_branch h (fun ho h => ?_) fun _ h => ?_
  · obtain ⟨b, hb, h⟩ := Exec.bind_eq_ok.mp h
    obtain ⟨hi, rfl⟩ := Bank.modify_eq_ok.mp hb
    have hv' : v.toNat < 2 ^ 32 := by rwa [ho.2] at hv
    rw [Nat.mul_assoc _ 4 8] at h
    have hscan := scan_register (T := fun m => d.enable.bit m) h (fun _ _ hm => getEnable_eq hm) hv'
      (by omega) fun b hb _ => by
        -- The write has made the interrupts of the scan pending.
        have hb32 := DistributorAccess.lt_of_getLsbD hv' hb
        rw [DistributorAccess.bit_mul_add _ hb32, Bank.update_reg_self]
        simp [hb, hb32]
    rw [WroteTo, hscan]
    exact stores_bank (B := d.pending) (fun _ => rfl) (fun _ => rfl)
      (fun s hs => by cases s <;> first | rfl | contradiction) (setBits _ ho.2 (.inr (.inl ho.1)))
  refine ok_branch h (fun ho h => ?_) fun _ h => ?_
  · obtain ⟨b, hb, h⟩ := Exec.bind_eq_ok.mp h
    obtain ⟨-, rfl⟩ := Bank.modify_eq_ok.mp hb
    obtain ⟨rfl, -⟩ := Prod.mk.inj (Except.ok.inj h)
    exact stores_bank (B := d.pending) (fun _ => rfl) (fun _ => rfl)
      (fun s hs => by cases s <;> first | rfl | contradiction) (clearBits _ (.inr (.inl ho.1)))
  refine ok_branch h (fun ho h => ?_) fun _ h => ?_
  · obtain ⟨b, hb, h⟩ := Exec.bind_eq_ok.mp h
    obtain ⟨-, rfl⟩ := Bank.modify_eq_ok.mp hb
    obtain ⟨rfl, -⟩ := Prod.mk.inj (Except.ok.inj h)
    exact stores_bank (B := d.active) (fun _ => rfl) (fun _ => rfl)
      (fun s hs => by cases s <;> first | rfl | contradiction) (setBits _ ho.2 (.inr (.inr ho.1)))
  refine ok_branch h (fun ho h => ?_) fun _ h => ?_
  · obtain ⟨b, hb, h⟩ := Exec.bind_eq_ok.mp h
    obtain ⟨-, rfl⟩ := Bank.modify_eq_ok.mp hb
    obtain ⟨rfl, -⟩ := Prod.mk.inj (Except.ok.inj h)
    exact stores_bank (B := d.active) (fun _ => rfl) (fun _ => rfl)
      (fun s hs => by cases s <;> first | rfl | contradiction) (clearBits _ (.inr (.inr ho.1)))
  refine ok_branch h (fun ho h => ?_) fun _ h => ?_
  · have hbyte : offset - gicdIpriorityr0 - (offset - gicdIpriorityr0) / 4 * 4 =
        (Fin.ofNat 4 (offset - gicdIpriorityr0)).val := by
      rw [Fin.val_ofNat]
      omega
    dsimp only at h
    rw [hbyte] at h
    exact writePriority_wroteTo hv (lt_of_lt_of_le (by decide) ho.1) h
  refine ok_branch h (fun ho h => ?_) fun _ h => ?_
  · obtain ⟨b, hb, h⟩ := Exec.bind_eq_ok.mp h
    obtain ⟨-, rfl⟩ := Bank.set_eq_ok.mp hb
    obtain ⟨rfl, -⟩ := Prod.mk.inj (Except.ok.inj h)
    exact stores_bank (B := d.configuration) (fun _ => rfl) (fun _ => rfl)
      (fun s hs => by cases s <;> first | rfl | contradiction)
      (plain _ ho.2 (.inr (lt_of_lt_of_le (by decide) ho.1.1)))
  refine ok_branch h (fun ho h => ?_) fun _ h => ?_
  · obtain ⟨b, hb, h⟩ := Exec.bind_eq_ok.mp h
    obtain ⟨-, rfl⟩ := Bank.set_eq_ok.mp hb
    obtain ⟨rfl, -⟩ := Prod.mk.inj (Except.ok.inj h)
    exact stores_bank (B := d.groupModifier) (fun _ => rfl) (fun _ => rfl)
      (fun s hs => by cases s <;> first | rfl | contradiction)
      (plain _ ho.2 (.inr (lt_of_lt_of_le (by decide) ho.1.1)))
  refine ok_branch h (fun ho h => ?_) fun _ h => ?_
  · obtain ⟨b, hb, h⟩ := Exec.bind_eq_ok.mp h
    obtain ⟨-, rfl⟩ := Bank.set_eq_ok.mp hb
    obtain ⟨rfl, -⟩ := Prod.mk.inj (Except.ok.inj h)
    rw [WroteTo, written_plain (.inr (lt_of_lt_of_le (by decide) ho.1.1))]
    refine stores_register (Bank.update_reg_self ..) fun s j hne => ?_
    cases s
    case router =>
      exact Bank.update_reg_of_ne _ (fun hj => hne ⟨rfl, hj⟩) _
    all_goals rfl
  · obtain ⟨rfl, -⟩ := Prod.mk.inj (Except.ok.inj h)
    rfl

/-- Past the last group modifier there is no register. -/
theorem pastGroupModifiers_iff {p : RegisterPart DistributorArray} (hp : part offset w = some p) :
    DistributorAccess.PastGroupModifiers offset w ↔ p.array = .groupModifier ∧ 32 ≤ p.index := by
  have early (h : offset < 0xD80) : ¬DistributorAccess.PastGroupModifiers offset w :=
    fun hc => absurd hc.2.1 (not_le.mpr h)
  unfold part at hp
  refine eq_branch hp (fun h hp => ?_) fun _ hp => ?_
  · cases hp
    exact iff_of_false (early (h.1.trans_lt (by decide))) fun hc => nomatch hc.1
  -- the other registers of words in front of the priorities
  iterate 7
    refine eq_branch hp (fun h hp => ?_) fun _ hp => ?_
    · cases hp
      exact iff_of_false (early (h.1.2.trans_lt (by decide))) fun hc => nomatch hc.1
  refine eq_branch hp (fun h hp => ?_) fun _ hp => ?_
  · have hpast := early (h.2.trans_le (by decide))
    refine eq_branch hp (fun _ hp => ?_) fun _ hp => ?_
    · cases hp
      exact iff_of_false hpast fun hc => nomatch hc.1
    refine eq_branch hp (fun _ hp => ?_) fun _ hp => nomatch hp
    cases hp
    exact iff_of_false hpast fun hc => nomatch hc.1
  refine eq_branch hp (fun h hp => ?_) fun _ hp => ?_
  · cases hp
    exact iff_of_false (early (h.1.2.trans_lt (by decide))) fun hc => nomatch hc.1
  refine eq_branch hp (fun h hp => ?_) fun _ hp => ?_
  · cases hp
    have hbase : gicdIgrpmodr0 = 0xD00 := rfl
    refine ⟨fun hc => ⟨rfl, ?_⟩, fun hc => ⟨h.2, ?_, h.1.2⟩⟩
    · have := hc.2.1
      simp only [hbase]
      omega
    · have hindex := hc.2
      simp only [hbase] at hindex
      omega
  refine eq_branch hp (fun h hp => ?_) fun _ hp => nomatch hp
  cases hp
  exact iff_of_false (fun hc => absurd (hc.1.symm.trans h.2) (by decide)) fun hc => nomatch hc.1

/-- A register of the distributor reads back what was written to it, if and only if the write returns. -/
theorem readsBack_iff (d : GicDistributorMmio) (cpu : Cpu) (offset w : ℕ) (v : BitVec 64)
    (hv : v.toNat < 2 ^ w) (hpart : (part offset w).isSome) :
    (∃ d' cpu', d.write cpu offset w v = .ok (d', cpu') ∧
        ReadsBack read part part d d' offset w (written offset · v)) ↔
      DistributorAccess.Safe d cpu (.write offset w v) := by
  rw [← DistributorAccess.write_returns_iff d cpu offset w v hv]
  constructor
  · rintro ⟨d', cpu', hrun, -⟩
    exact ⟨_, hrun⟩
  · rintro ⟨⟨d', cpu'⟩, hrun⟩
    obtain ⟨p, hp⟩ := Option.isSome_iff_exists.mp hpart
    have hpast : ¬DistributorAccess.PastGroupModifiers offset w :=
      ((DistributorAccess.write_returns_iff d cpu offset w v hv).mp ⟨_, hrun⟩).1
    have hwrote := write_wroteTo hv hrun
    rw [hp] at hwrote
    obtain ⟨hsame, hother⟩ := hwrote
    have hread : ∀ offset' w', part offset' w' = some p → d.read offset' w' = .ok (p.value d.register) ∧
        d'.read offset' w' = .ok (written offset (p.value d.register) v) := by
      intro offset' w' hp'
      have hpast' : ¬DistributorAccess.PastGroupModifiers offset' w' :=
        (pastGroupModifiers_iff hp').not.mpr ((pastGroupModifiers_iff hp).not.mp hpast)
      rw [read_eq, read_eq, hp', readOf_some hpast', readOf_some hpast', hsame]
      exact ⟨rfl, rfl⟩
    refine ⟨d', cpu', hrun, ⟨_, hread offset w hp, fun offset' w' hq => ?_⟩, fun offset' w' happart => ?_⟩
    · exact hread offset' w' (hq.trans hp)
    · rw [read_eq, read_eq]
      cases hq : part offset' w' with
      | none => rfl
      | some q => rw [readOf, readOf, hother q (happart p q hp hq)]

end GicDistributorMmio

end MiniVisor
