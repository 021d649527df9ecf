import MiniVisor.Checked

/-!
# Byte memory with a record of accesses

`Memory` is a memory of bytes that remembers which ranges were read or written. An access is
private if it goes to a buffer of the program's own. `Confined R m m'` says that between `m` and `m'`
all accesses that are not private were inside `R`, and that no byte outside of `R` and of the private
ranges has changed; it composes by `Confined.trans`.
-/

namespace Machine

/-- A range that was accessed. -/
structure Access where
  address : ℕ
  size : ℕ
  isPrivate : Bool
  deriving DecidableEq, Repr

/-- The bytes of the range. -/
def Access.range (x : Access) : Set ℕ :=
  Set.Ico x.address (x.address + x.size)

structure Memory where
  bytes : ℕ → BitVec 8
  accesses : List Access

namespace Memory

variable (m : Memory)

/-- The range is accessed. -/
def touch (address size : ℕ) (isPrivate : Bool) : Memory :=
  { m with accesses := ⟨address, size, isPrivate⟩ :: m.accesses }

/-- The bytes from `address` on as a number, the lowest first. -/
def value (address : ℕ) : ℕ → ℕ
  | 0 => 0
  | size + 1 => (m.bytes address).toNat + 256 * value (address + 1) size

/-- A number is read. -/
def load (address size : ℕ) : ℕ × Memory :=
  (m.value address size, m.touch address size false)

/-- The bytes of the range are replaced. -/
def fill (address size : ℕ) (isPrivate : Bool) (f : ℕ → BitVec 8) : Memory where
  bytes := fun a => if address ≤ a ∧ a < address + size then f (a - address) else m.bytes a
  accesses := ⟨address, size, isPrivate⟩ :: m.accesses

/-- A number is written, its lowest byte first. -/
def store (address size v : ℕ) : Memory :=
  m.fill address size false fun i => BitVec.ofNat 8 (v / 256 ^ i)

/-- A number is written by someone else, and not recorded. -/
def poke (address size v : ℕ) : Memory :=
  { m with bytes := (m.store address size v).bytes }

variable {m} {m' m'' : Memory}

theorem value_congr : ∀ {size address : ℕ},
    (∀ a, address ≤ a → a < address + size → m'.bytes a = m.bytes a) →
      m'.value address size = m.value address size
  | 0, _, _ => rfl
  | size + 1, address, h => by
    rw [value, value, h address le_rfl (by omega),
      value_congr fun a ha ha' => h a (by omega) (by omega)]

/-- The same bytes at two places are the same number. -/
theorem value_shift : ∀ {size a a' : ℕ}, (∀ i < size, m.bytes (a + i) = m'.bytes (a' + i)) →
    m.value a size = m'.value a' size
  | 0, _, _, _ => rfl
  | size + 1, a, a', h => by
    have hfirst : m.bytes a = m'.bytes a' := h 0 (by omega)
    have hrest : ∀ i < size, m.bytes (a + 1 + i) = m'.bytes (a' + 1 + i) := fun i hi => by
      rw [Nat.add_assoc, Nat.add_assoc, h (1 + i) (by omega)]
    rw [value, value, hfirst, value_shift hrest]

theorem value_lt : ∀ (size address : ℕ), m.value address size < 256 ^ size
  | 0, _ => by simp [value]
  | size + 1, address => by
    have h := value_lt size (address + 1)
    have hb := (m.bytes address).isLt
    rw [value, pow_succ]
    omega

@[simp] theorem value_touch (address size : ℕ) (isPrivate : Bool) (a n : ℕ) :
    (m.touch address size isPrivate).value a n = m.value a n :=
  value_congr fun _ _ _ => rfl

/-- What was stored is read back. -/
theorem value_store_self {size v : ℕ} (hv : v < 256 ^ size) (address : ℕ) :
    (m.store address size v).value address size = v := by
  have hdigits : ∀ n i, i + n = size →
      (m.store address size v).value (address + i) n = v / 256 ^ i := by
    intro n
    induction n with
    | zero =>
      intro i hi
      obtain rfl : i = size := by omega
      rw [value, Nat.div_eq_of_lt hv]
    | succ n ih =>
      intro i hi
      have hbyte : (m.store address size v).bytes (address + i) = BitVec.ofNat 8 (v / 256 ^ i) := by
        simp only [store, fill]
        rw [if_pos (by omega), Nat.add_sub_cancel_left]
      rw [value, hbyte, Nat.add_assoc, ih (i + 1) (by omega), BitVec.toNat_ofNat,
        pow_succ 256 i, ← Nat.div_div_eq_div_mul]
      omega
  simpa using hdigits size 0 (by omega)

theorem bytes_store_of_notMem {address size a : ℕ} (v : ℕ) (h : a ∉ Set.Ico address (address + size)) :
    (m.store address size v).bytes a = m.bytes a :=
  if_neg h

/-- A range that does not meet the stored one. -/
theorem value_store_of_disjoint {address size a n : ℕ} (v : ℕ)
    (h : a + n ≤ address ∨ address + size ≤ a) : (m.store address size v).value a n = m.value a n := by
  refine value_congr fun x hx hx' => ?_
  simp only [store, fill]
  rw [if_neg (by omega)]

theorem value_poke (address size v a n : ℕ) :
    (m.poke address size v).value a n = (m.store address size v).value a n :=
  value_congr fun _ _ _ => rfl

theorem value_poke_self {size v : ℕ} (hv : v < 256 ^ size) (address : ℕ) :
    (m.poke address size v).value address size = v := by
  rw [value_poke, value_store_self hv]

theorem value_poke_of_disjoint {address size a n : ℕ} (v : ℕ)
    (h : a + n ≤ address ∨ address + size ≤ a) : (m.poke address size v).value a n = m.value a n := by
  rw [value_poke, value_store_of_disjoint v h]

/-- A part of a range that was zeroed. -/
theorem value_poke_zero {address size : ℕ} : ∀ {n a : ℕ}, address ≤ a → a + n ≤ address + size →
    (m.poke address size 0).value a n = 0
  | 0, _, _, _ => rfl
  | n + 1, a, ha, hn => by
    have hbyte : (m.poke address size 0).bytes a = 0#8 := by
      simp only [poke, store, fill]
      rw [if_pos (by omega), Nat.zero_div]
    rw [value, hbyte, value_poke_zero (by omega) (by omega)]
    rfl

/-! ## Confined changes -/

/-- All accesses that are not private were inside `R`, and other bytes are as they were. -/
structure Confined (R : Set ℕ) (m m' : Memory) : Prop where
  accesses : ∃ new, m'.accesses = new ++ m.accesses ∧
    (∀ x ∈ new, x.isPrivate = false → x.range ⊆ R) ∧
      ∀ a, a ∉ R → (∀ x ∈ new, x.isPrivate = true → a ∉ x.range) → m'.bytes a = m.bytes a

variable {R : Set ℕ}

theorem Confined.refl (R : Set ℕ) (m : Memory) : Confined R m m :=
  ⟨[], rfl, by simp, fun _ _ _ => rfl⟩

theorem Confined.trans (h : Confined R m m') (h' : Confined R m' m'') : Confined R m m'' := by
  obtain ⟨new, hnew, hin, hout⟩ := h.accesses
  obtain ⟨new', hnew', hin', hout'⟩ := h'.accesses
  refine ⟨new' ++ new, by rw [hnew', hnew, List.append_assoc], fun x hx => ?_, fun a ha hp => ?_⟩
  · rcases List.mem_append.mp hx with hx | hx
    · exact hin' x hx
    · exact hin x hx
  · rw [hout' a ha fun x hx => hp x (List.mem_append_left _ hx),
      hout a ha fun x hx => hp x (List.mem_append_right _ hx)]

theorem Confined.mono {R' : Set ℕ} (h : Confined R m m') (hR : R ⊆ R') : Confined R' m m' := by
  obtain ⟨new, hnew, hin, hout⟩ := h.accesses
  exact ⟨new, hnew, fun x hx hp => (hin x hx hp).trans hR, fun a ha => hout a fun h => ha (hR h)⟩

/-- One access that changes at most its own range. -/
theorem Confined.single {x : Access} (hacc : m'.accesses = x :: m.accesses)
    (hx : x.isPrivate = false → x.range ⊆ R) (hb : ∀ a, a ∉ x.range → m'.bytes a = m.bytes a) :
    Confined R m m' := by
  refine ⟨[x], hacc, fun y hy => ?_, fun a ha hp => hb a fun hax => ?_⟩
  · obtain rfl := List.mem_singleton.mp hy
    exact hx
  · cases hpriv : x.isPrivate with
    | false => exact ha (hx hpriv hax)
    | true => exact hp x (List.mem_singleton_self x) hpriv hax

theorem confined_touch {address size : ℕ} {isPrivate : Bool}
    (h : isPrivate = false → Set.Ico address (address + size) ⊆ R) :
    Confined R m (m.touch address size isPrivate) :=
  .single rfl h fun _ _ => rfl

theorem confined_fill {address size : ℕ} {isPrivate : Bool} {f : ℕ → BitVec 8}
    (h : isPrivate = false → Set.Ico address (address + size) ⊆ R) :
    Confined R m (m.fill address size isPrivate f) :=
  .single rfl h fun _ ha => if_neg ha

/-- A buffer of the program's own is no access of `R`, wherever it is. -/
theorem confined_fill_private {address size : ℕ} {f : ℕ → BitVec 8} :
    Confined R m (m.fill address size true f) := by
  refine confined_fill fun h => ?_
  cases h

end Memory

end Machine
