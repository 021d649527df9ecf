import MiniVisor.Paging
import Mathlib.Tactic.IntervalCases

/-!
# Walking stage 2 translation tables

`walk` is the translation the hardware does with a 4 KiB granule, from a descriptor down :
`translate` starts it at the table `VTTBR_EL2` points to.

`words memory k a` are the descriptors that a walk from `a` can read, and `WellFormed` says that
they form a tree. A write elsewhere changes no walk (`walk_congr`), so what a mapping does to one
subtree is all that it does.
-/

namespace MiniVisor

open Machine

/-! ## The walk of the hardware -/

/-- Bits 47 to 12, the address in a descriptor. -/
def descriptorAddress (d : BitVec 64) : ℕ :=
  (d &&& 0xFFFFFFFFF000#64).toNat

/-- Where a walk ends : an address, and whether it may be read and written. -/
structure Translation where
  address : ℕ
  isReadable : Bool
  isWritable : Bool
  deriving DecidableEq, Repr

/-- The translation a leaf descriptor gives, in a table with `k` levels below it. -/
def leafTranslation (d : BitVec 64) (k x : ℕ) : Translation where
  address := descriptorAddress d / blockSize k * blockSize k + x % blockSize k
  isReadable := d.getLsbD 6
  isWritable := d.getLsbD 7

/-- The walk from the descriptor at address `a`, with `k` levels below its table. Bit 10 is the
access flag; there are no blocks at level 0. -/
def walk (memory : ℕ → BitVec 64) : ℕ → ℕ → ℕ → Option Translation
  | 0, a, x =>
    if memory a &&& 0b11#64 = 0b11#64 ∧ (memory a).getLsbD 10 then
      some (leafTranslation (memory a) 0 x)
    else none
  | k + 1, a, x =>
    if memory a &&& 0b11#64 = 0b11#64 then
      walk memory k (descriptorAddress (memory a) + 8 * (x / blockSize k % 512)) x
    else if memory a &&& 0b11#64 = 0b01#64 ∧ k + 1 ≤ 2 ∧ (memory a).getLsbD 10 then
      some (leafTranslation (memory a) (k + 1) x)
    else none

/-- The number of levels below the table where the walk from `a` ends. -/
def walkLevel (memory : ℕ → BitVec 64) : ℕ → ℕ → ℕ → ℕ
  | 0, _, _ => 0
  | k + 1, a, x =>
    if memory a &&& 0b11#64 = 0b11#64 then
      walkLevel memory k (descriptorAddress (memory a) + 8 * (x / blockSize k % 512)) x
    else k + 1

/-- Bits 47 to 1 of `VTTBR_EL2`. -/
def translationBase (vttbrEl2 : BitVec 64) : ℕ :=
  (vttbrEl2 &&& 0xFFFFFFFFFFFE#64).toNat

/-- Stage 2 translation of an intermediate physical address. -/
def translate (regs : Stage2Registers) (memory : ℕ → BitVec 64) (x : ℕ) : Option Translation :=
  let k := levelsBelow (vtcrSl0 regs.vtcrEl2)
  if x < 2 ^ (64 - vtcrT0sz regs.vtcrEl2) then
    walk memory k (translationBase regs.vttbrEl2 + 8 * (x / blockSize k)) x
  else none

/-! ## Block sizes -/

theorem blockSize_pos (k : ℕ) : 0 < blockSize k :=
  Nat.two_pow_pos _

theorem blockSize_zero : blockSize 0 = 4096 :=
  rfl

theorem blockSize_succ (k : ℕ) : blockSize (k + 1) = 512 * blockSize k := by
  rw [blockSize, blockSize, show 12 + 9 * (k + 1) = 9 + (12 + 9 * k) by ring, pow_add]
  rfl

theorem pageSize_dvd_blockSize (k : ℕ) : 4096 ∣ blockSize k :=
  pow_dvd_pow 2 (show 12 ≤ 12 + 9 * k by omega)

theorem div_blockSize_succ (k x : ℕ) : x / blockSize (k + 1) = x / blockSize k / 512 := by
  rw [blockSize_succ, Nat.mul_comm, Nat.div_div_eq_div_mul]

theorem blockSize_dvd {j k : ℕ} (h : j ≤ k) : blockSize j ∣ blockSize k :=
  pow_dvd_pow 2 (by omega)

/-- Addresses of one region are in one region of every larger size. -/
theorem div_blockSize_congr {j k x y : ℕ} (h : j ≤ k) (hxy : y / blockSize j = x / blockSize j) :
    y / blockSize k = x / blockSize k := by
  obtain ⟨m, hm⟩ := blockSize_dvd h
  rw [hm, ← Nat.div_div_eq_div_mul, ← Nat.div_div_eq_div_mul, hxy]

/-- A region that lies behind the begin of a larger one, and before the end of one. -/
theorem le_region {j k c x : ℕ} (h : j ≤ k) (hx : c * blockSize k ≤ x) :
    c * blockSize k ≤ x / blockSize j * blockSize j := by
  obtain ⟨m, hm⟩ := blockSize_dvd h
  rw [hm, Nat.mul_left_comm, Nat.mul_comm] at hx ⊢
  exact Nat.mul_le_mul_right _ ((Nat.le_div_iff_mul_le (blockSize_pos j)).mpr hx)

theorem region_le {j k c x : ℕ} (h : j ≤ k) (hx : x < c * blockSize k) :
    (x / blockSize j + 1) * blockSize j ≤ c * blockSize k := by
  obtain ⟨m, hm⟩ := blockSize_dvd h
  rw [hm, Nat.mul_left_comm, Nat.mul_comm] at hx
  rw [hm, Nat.mul_left_comm, Nat.mul_comm (blockSize j)]
  exact Nat.mul_le_mul_right _ ((Nat.div_lt_iff_lt_mul (blockSize_pos j)).mpr hx)

/-- An address is in the same region as the begin of its page. -/
theorem page_div_blockSize (k x : ℕ) : x / 4096 * 4096 / blockSize k = x / blockSize k :=
  div_blockSize_congr (Nat.zero_le k) (Nat.mul_div_cancel _ (by decide))

/-! ## Where walks end -/

section Walks

variable {memory : ℕ → BitVec 64}

theorem walkLevel_le : ∀ (k a x : ℕ), walkLevel memory k a x ≤ k
  | 0, _, _ => le_rfl
  | k + 1, a, x => by
    rw [walkLevel]
    split_ifs
    · exact (walkLevel_le k _ x).trans (Nat.le_succ k)
    · exact le_rfl

/-- The addresses of the region where a walk ends are all translated, or none of them. -/
theorem walk_eq_none_iff {x y : ℕ} : ∀ {k a : ℕ},
    y / blockSize (walkLevel memory k a x) = x / blockSize (walkLevel memory k a x) →
      (walk memory k a y = none ↔ walk memory k a x = none)
  | 0, a, _ => by
    rw [walk, walk]
    split_ifs
    · simp
    · rfl
  | k + 1, a, h => by
    rw [walkLevel] at h
    rw [walk, walk]
    by_cases ht : memory a &&& 0b11#64 = 0b11#64
    · rw [if_pos ht] at h
      rw [if_pos ht, if_pos ht, div_blockSize_congr (walkLevel_le k _ x) h]
      exact walk_eq_none_iff h
    · rw [if_neg ht, if_neg ht]
      split_ifs
      · simp
      · rfl

/-- What a leaf gives keeps the offset in the page and has 48 bits. -/
theorem leafTranslation_address {d : BitVec 64} {k x : ℕ} (hk : k ≤ 2) :
    (leafTranslation d k x).address % 4096 = x % 4096 ∧ (leafTranslation d k x).address < 2 ^ 48 := by
  obtain ⟨m, hm⟩ := pageSize_dvd_blockSize k
  obtain ⟨n, hn⟩ : blockSize k ∣ 2 ^ 48 := pow_dvd_pow 2 (by omega)
  have hb := blockSize_pos k
  have hmod := Nat.mod_lt x hb
  have hlt : descriptorAddress d / blockSize k < n := by
    rw [Nat.div_lt_iff_lt_mul hb, Nat.mul_comm, ← hn, descriptorAddress, BitVec.toNat_and]
    exact Nat.lt_of_le_of_lt Nat.and_le_right (by decide)
  have hle : (descriptorAddress d / blockSize k + 1) * blockSize k ≤ n * blockSize k :=
    Nat.mul_le_mul_right _ hlt
  rw [Nat.mul_comm n, ← hn, Nat.add_mul, Nat.one_mul] at hle
  rw [leafTranslation]
  constructor
  · rw [hm, ← Nat.mul_assoc, Nat.mul_right_comm, Nat.mul_comm _ 4096, Nat.mul_add_mod,
      Nat.mod_mul_right_mod]
  · simp only
    omega

theorem walk_address {x : ℕ} {t : Translation} : ∀ {k a : ℕ}, walk memory k a x = some t →
    t.address % 4096 = x % 4096 ∧ t.address < 2 ^ 48
  | 0, a, h => by
    rw [walk] at h
    split_ifs at h
    cases h
    exact leafTranslation_address (by decide)
  | k + 1, a, h => by
    rw [walk] at h
    split_ifs at h with ht hblock
    · exact walk_address h
    · cases h
      exact leafTranslation_address hblock.2.1

end Walks

/-! ## The bits of descriptors -/

section Bits

variable {a : ℕ}

theorem ofNat_and_low (ha : 4096 ∣ a) : BitVec.ofNat 64 a &&& 0xFFF#64 = 0#64 := by
  obtain ⟨q, rfl⟩ := ha
  apply BitVec.eq_of_toNat_eq
  rw [BitVec.toNat_and, BitVec.toNat_ofNat, show (0xFFF#64).toNat = 2 ^ 12 - 1 from rfl,
    Nat.and_two_pow_sub_one_eq_mod]
  simp only [BitVec.toNat_ofNat]
  omega

theorem and_eq_zero_of_low {x m : BitVec 64} (hx : x &&& 0xFFF#64 = 0#64)
    (hm : m &&& 0xFFF#64 = m) : x &&& m = 0#64 := by
  rw [← hm, BitVec.and_comm m, ← BitVec.and_assoc, hx, BitVec.zero_and]

/-- What a leaf descriptor keeps of the address. -/
def leafAddressMask : BitVec 64 :=
  ~~~Descriptor.s2ap &&& ~~~Descriptor.attrIndex &&& ~~~Descriptor.sh

/-- A leaf descriptor is its address and its attributes. -/
theorem leaf_eq (a : ℕ) (permission : BitVec 64) : Descriptor.leaf a permission =
    (BitVec.ofNat 64 a &&& leafAddressMask) ||| Descriptor.leaf 0 permission := by
  simp only [Descriptor.leaf, Descriptor.setOutputAddress, Descriptor.setPermission,
    Descriptor.setMemoryAttributeWriteBack, Descriptor.setShareability, BitVec.zero_and, BitVec.zero_or,
    BitVec.and_or_distrib_right, BitVec.or_assoc, BitVec.and_assoc, leafAddressMask]

/-- The address of the page comes back out of a descriptor. -/
theorem descriptorAddress_or {c m : BitVec 64} (hlt : a < 2 ^ 48)
    (hm : m &&& 0xFFFFFFFFF000#64 = 0xFFFFFFFFF000#64) (hc : c &&& 0xFFFFFFFFF000#64 = 0#64) :
    descriptorAddress ((BitVec.ofNat 64 a &&& m) ||| c) = a / 4096 * 4096 := by
  have hmask : (0xFFFFFFFFF000#64).toNat = bitNot 48 (2 ^ 12 - 1) := rfl
  rw [descriptorAddress, BitVec.and_or_distrib_right, hc, BitVec.or_zero, BitVec.and_assoc, hm,
    BitVec.toNat_and, hmask, BitVec.toNat_ofNat, Nat.mod_eq_of_lt (by omega),
    land_bitNot_two_pow (by decide) hlt]
  rfl

/-- The table address of the code is the one of the hardware. -/
theorem getNextLevelTableAddress_table (ha : 4096 ∣ a) (hlt : a < 2 ^ 48) :
    Descriptor.getNextLevelTableAddress (Descriptor.table a) = a := by
  have htable : Descriptor.table a = BitVec.ofNat 64 a ||| (Descriptor.af ||| 0b11#64) := by
    simp [Descriptor.table, Descriptor.setOutputAddress, BitVec.or_assoc]
  have hmask : Descriptor.tableAddressMask.toNat = bitNot 52 (2 ^ 12 - 1) := by decide
  have hc : (Descriptor.af ||| 0b11#64) &&& Descriptor.tableAddressMask = 0#64 := by decide
  rw [Descriptor.getNextLevelTableAddress, htable, BitVec.and_or_distrib_right, hc, BitVec.or_zero,
    BitVec.toNat_and, hmask, BitVec.toNat_ofNat, Nat.mod_eq_of_lt (by omega),
    land_bitNot_two_pow (by decide) (by omega)]
  exact Nat.div_mul_cancel ha

theorem descriptorAddress_table (ha : 4096 ∣ a) (hlt : a < 2 ^ 48) :
    descriptorAddress (Descriptor.table a) = a := by
  have htable : Descriptor.table a = BitVec.ofNat 64 a ||| (Descriptor.af ||| 0b11#64) := by
    simp [Descriptor.table, Descriptor.setOutputAddress, BitVec.or_assoc]
  rw [htable, ← BitVec.and_allOnes (x := BitVec.ofNat 64 a), descriptorAddress_or hlt (by decide)
    (by decide)]
  exact Nat.div_mul_cancel ha

theorem table_and_three : Descriptor.table a &&& 0b11#64 = 0b11#64 := by
  ext i hi
  simp only [Descriptor.table, BitVec.getElem_and, BitVec.getElem_or]
  cases (0b11#64)[i] <;> simp

/-- A leaf descriptor of the code is a page for `v = 3` and a block for `v = 1`. Only a block has to be
aligned. -/
theorem leaf_and_three (isReadable isWritable : Bool) {v : BitVec 64}
    (hv : v = 0b11#64 ∨ v = 0b01#64 ∧ 4096 ∣ a) :
    (Descriptor.leaf a (permissionOf isReadable isWritable) ||| v) &&& 0b11#64 = v := by
  have hlow : (Descriptor.leaf 0 (permissionOf isReadable isWritable) ||| v) &&& 0b11#64 = v := by
    obtain rfl | ⟨rfl, -⟩ := hv <;> cases isReadable <;> cases isWritable <;> decide
  rw [leaf_eq, BitVec.or_assoc, BitVec.and_or_distrib_right, hlow]
  obtain rfl | ⟨rfl, ha⟩ := hv
  · ext i hi
    simp only [BitVec.getElem_and, BitVec.getElem_or]
    cases (0b11#64)[i] <;> simp
  · have hzero := and_eq_zero_of_low (ofNat_and_low ha) (show 0b11#64 &&& 0xFFF#64 = _ by decide)
    rw [BitVec.and_assoc, BitVec.and_comm leafAddressMask, ← BitVec.and_assoc, hzero,
      BitVec.zero_and, BitVec.zero_or]

/-- What the hardware reads in a leaf descriptor of the code. -/
theorem leaf_or_spec (hlt : a < 2 ^ 48) (isReadable isWritable : Bool) {v : BitVec 64}
    (hv : v = 0b11#64 ∨ v = 0b01#64) {d : BitVec 64}
    (hd : d = Descriptor.leaf a (permissionOf isReadable isWritable) ||| v) :
    d.getLsbD 10 = true ∧ d.getLsbD 6 = isReadable ∧ d.getLsbD 7 = isWritable ∧
      descriptorAddress d = a / 4096 * 4096 := by
  rw [leaf_eq, BitVec.or_assoc] at hd
  have hbit : ∀ i, leafAddressMask.getLsbD i = false →
      d.getLsbD i = (Descriptor.leaf 0 (permissionOf isReadable isWritable) ||| v).getLsbD i := by
    intro i hi
    rw [hd, BitVec.getLsbD_or, BitVec.getLsbD_and, hi, Bool.and_false, Bool.false_or]
  refine ⟨?_, ?_, ?_, ?_⟩
  · have h10 : (Descriptor.leaf 0 (permissionOf isReadable isWritable) ||| v).getLsbD 10 = true := by
      obtain rfl | rfl := hv <;> cases isReadable <;> cases isWritable <;> decide
    rw [hd, BitVec.getLsbD_or, h10, Bool.or_true]
  · rw [hbit 6 (by decide)]
    obtain rfl | rfl := hv <;> cases isReadable <;> cases isWritable <;> decide
  · rw [hbit 7 (by decide)]
    obtain rfl | rfl := hv <;> cases isReadable <;> cases isWritable <;> decide
  · rw [hd]
    refine descriptorAddress_or hlt (by decide) ?_
    obtain rfl | rfl := hv <;> cases isReadable <;> cases isWritable <;> decide

/-- The translation of a leaf descriptor of the code. -/
theorem leafTranslation_leaf {k : ℕ} (ha : blockSize k ∣ a / 4096 * 4096) (hlt : a < 2 ^ 48)
    (isReadable isWritable : Bool) {v : BitVec 64} (hv : v = 0b11#64 ∨ v = 0b01#64) (x : ℕ) :
    leafTranslation (Descriptor.leaf a (permissionOf isReadable isWritable) ||| v) k x =
      ⟨a / 4096 * 4096 + x % blockSize k, isReadable, isWritable⟩ := by
  obtain ⟨-, h6, h7, haddr⟩ := leaf_or_spec hlt isReadable isWritable hv rfl
  rw [leafTranslation, h6, h7, haddr, Nat.div_mul_cancel ha]

end Bits

/-! ## The descriptors a walk can read -/

section Words

variable (memory : ℕ → BitVec 64)

/-- The addresses of the descriptors that a walk from `a` can read. -/
def words : ℕ → ℕ → Set ℕ
  | 0, a => {a}
  | k + 1, a => {b | b = a ∨ (memory a &&& 0b11#64 = 0b11#64 ∧
    ∃ j < 512, b ∈ words k (descriptorAddress (memory a) + 8 * j))}

/-- The descriptors that walks from `n` descriptors at `a` can read. -/
def tableWords (k a n : ℕ) : Set ℕ :=
  {b | ∃ j < n, b ∈ words memory k (a + 8 * j)}

/-- The descriptors below `a` form a tree, and the code finds the same tables as the hardware. -/
def WellFormed : ℕ → ℕ → Prop
  | 0, _ => True
  | k + 1, a => memory a &&& 0b11#64 = 0b11#64 →
    Descriptor.getNextLevelTableAddress (memory a) = descriptorAddress (memory a) ∧
    a ∉ tableWords memory k (descriptorAddress (memory a)) 512 ∧
    (∀ j < 512, WellFormed k (descriptorAddress (memory a) + 8 * j)) ∧
    ∀ i < 512, ∀ j < 512, i ≠ j →
      Disjoint (words memory k (descriptorAddress (memory a) + 8 * i))
        (words memory k (descriptorAddress (memory a) + 8 * j))

/-- The same for the `n` descriptors at `a`. -/
def TableWellFormed (k a n : ℕ) : Prop :=
  (∀ j < n, WellFormed memory k (a + 8 * j)) ∧
    ∀ i < n, ∀ j < n, i ≠ j →
      Disjoint (words memory k (a + 8 * i)) (words memory k (a + 8 * j))

variable {memory} {memory' : ℕ → BitVec 64}

theorem mem_words_self : ∀ (k a : ℕ), a ∈ words memory k a
  | 0, _ => rfl
  | _ + 1, _ => .inl rfl

/-- Memory that agrees on these descriptors has the same ones. -/
theorem words_congr : ∀ {k a : ℕ}, (∀ b ∈ words memory k a, memory' b = memory b) →
    words memory' k a = words memory k a
  | 0, _, _ => rfl
  | k + 1, a, h => by
    have ha : memory' a = memory a := h a (.inl rfl)
    ext b
    simp only [words, Set.mem_ofPred_eq, ha]
    refine or_congr_right (and_congr_right fun ht => exists_congr fun j => and_congr_right
      fun hj => ?_)
    rw [words_congr fun b hb => h b (.inr ⟨ht, j, hj, hb⟩)]

theorem walk_congr : ∀ {k a : ℕ}, (∀ b ∈ words memory k a, memory' b = memory b) → ∀ x,
    walk memory' k a x = walk memory k a x
  | 0, a, h, x => by simp only [walk, h a rfl]
  | k + 1, a, h, x => by
    have ha : memory' a = memory a := h a (.inl rfl)
    simp only [walk, ha]
    split_ifs with ht
    · exact walk_congr (fun b hb => h b (.inr ⟨ht, _, Nat.mod_lt _ (by decide), hb⟩)) x
    · rfl
    · rfl

theorem walkLevel_congr : ∀ {k a : ℕ}, (∀ b ∈ words memory k a, memory' b = memory b) → ∀ x,
    walkLevel memory' k a x = walkLevel memory k a x
  | 0, _, _, _ => rfl
  | k + 1, a, h, x => by
    have ha : memory' a = memory a := h a (.inl rfl)
    simp only [walkLevel, ha]
    split_ifs with ht
    · exact walkLevel_congr (fun b hb => h b (.inr ⟨ht, _, Nat.mod_lt _ (by decide), hb⟩)) x
    · rfl

theorem wellFormed_congr : ∀ {k a : ℕ}, (∀ b ∈ words memory k a, memory' b = memory b) →
    WellFormed memory k a → WellFormed memory' k a
  | 0, _, _, _ => trivial
  | k + 1, a, h, hw => by
    have ha : memory' a = memory a := h a (.inl rfl)
    simp only [WellFormed, ha] at hw ⊢
    intro ht
    obtain ⟨h1, h2, h3, h4⟩ := hw ht
    have hsub : ∀ j < 512, words memory' k (descriptorAddress (memory a) + 8 * j) =
        words memory k (descriptorAddress (memory a) + 8 * j) := fun j hj =>
      words_congr fun b hb => h b (.inr ⟨ht, j, hj, hb⟩)
    refine ⟨h1, ?_, fun j hj => ?_, fun i hi j hj hij => ?_⟩
    · rintro ⟨j, hj, hb⟩
      rw [hsub j hj] at hb
      exact h2 ⟨j, hj, hb⟩
    · exact wellFormed_congr (fun b hb => h b (.inr ⟨ht, j, hj, hb⟩)) (h3 j hj)
    · rw [hsub i hi, hsub j hj]
      exact h4 i hi j hj hij

theorem tableWords_one (k a : ℕ) : tableWords memory k a 1 = words memory k a := by
  ext b
  simp [tableWords]

theorem tableWellFormed_one {k a : ℕ} : TableWellFormed memory k a 1 ↔ WellFormed memory k a := by
  constructor
  · intro h
    simpa using h.1 0 (by decide)
  · intro h
    refine ⟨fun j hj => ?_, fun i hi j hj hij => by omega⟩
    obtain rfl : j = 0 := by omega
    simpa using h

/-- The words of `m + n` descriptors are those of the first `m` and those of the others. -/
theorem tableWords_add (k a m n : ℕ) : tableWords memory k a (m + n) =
    tableWords memory k a m ∪ tableWords memory k (a + 8 * m) n := by
  ext b
  simp only [tableWords, Set.mem_union, Set.mem_ofPred_eq]
  constructor
  · rintro ⟨j, hj, hb⟩
    by_cases hm : j < m
    · exact .inl ⟨j, hm, hb⟩
    · refine .inr ⟨j - m, by omega, ?_⟩
      rwa [show a + 8 * m + 8 * (j - m) = a + 8 * j by omega]
  · rintro (⟨j, hj, hb⟩ | ⟨j, hj, hb⟩)
    · exact ⟨j, by omega, hb⟩
    · refine ⟨m + j, by omega, ?_⟩
      rwa [show a + 8 * (m + j) = a + 8 * m + 8 * j by ring]

theorem tableWellFormed_add {k a m n : ℕ} : TableWellFormed memory k a (m + n) ↔
    TableWellFormed memory k a m ∧ TableWellFormed memory k (a + 8 * m) n ∧
      Disjoint (tableWords memory k a m) (tableWords memory k (a + 8 * m) n) := by
  have hshift : ∀ j, a + 8 * m + 8 * j = a + 8 * (m + j) := fun j => by ring
  simp only [TableWellFormed, hshift]
  constructor
  · rintro ⟨h1, h2⟩
    refine ⟨⟨fun j hj => h1 j (by omega), fun i hi j hj => h2 i (by omega) j (by omega)⟩,
      ⟨fun j hj => h1 (m + j) (by omega), fun i hi j hj hij =>
        h2 (m + i) (by omega) (m + j) (by omega) (by omega)⟩, Set.disjoint_left.mpr ?_⟩
    rintro b ⟨i, hi, hb⟩ ⟨j, hj, hb'⟩
    rw [hshift] at hb'
    exact Set.disjoint_left.mp (h2 i (by omega) (m + j) (by omega) (by omega)) hb hb'
  · rintro ⟨⟨h1, h2⟩, ⟨h3, h4⟩, hd⟩
    have hd' : ∀ i < m, ∀ j, m ≤ j → j < m + n →
        Disjoint (words memory k (a + 8 * i)) (words memory k (a + 8 * j)) := by
      intro i hi j hj hj'
      refine Set.disjoint_left.mpr fun b hb hb' => Set.disjoint_left.mp hd ⟨i, hi, hb⟩
        ⟨j - m, by omega, ?_⟩
      rwa [show a + 8 * m + 8 * (j - m) = a + 8 * j by omega]
    have hsub : ∀ j, m ≤ j → m + (j - m) = j := fun j hj => by omega
    refine ⟨fun j hj => ?_, fun i hi j hj hij => ?_⟩
    · by_cases hm : j < m
      · exact h1 j hm
      · simpa [hsub j (by omega)] using h3 (j - m) (by omega)
    · by_cases him : i < m
      · by_cases hjm : j < m
        · exact h2 i him j hjm hij
        · exact hd' i him j (by omega) hj
      · by_cases hjm : j < m
        · exact (hd' j hjm i (by omega) hi).symm
        · simpa [hsub i (by omega), hsub j (by omega)] using
            h4 (i - m) (by omega) (j - m) (by omega) (by omega)

end Words

end MiniVisor
