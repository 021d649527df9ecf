import MiniVisor.PagingMap

/-!
# Runs of `map_address_stage2`

A table that `init_stage2_translation_table` made and that any number of calls of
`map_address_stage2` filled translates each range it was given linearly, and nothing else, as long
as the root table lies below `2 ^ 47` : `VTTBR_BADDR` has bits 46 to 1, and the hardware reads
bit 47 of the base too, so that above it the code fills another table than the one that is walked.
-/

namespace MiniVisor

open Machine

/-! ## The registers -/

theorem exists_parange (v : BitVec 64) :
    ∃ n < 16, v &&& idAa64mmfr0El1Parange = BitVec.ofNat 64 n := by
  refine ⟨(v &&& idAa64mmfr0El1Parange).toNat, ?_, by simp⟩
  rw [BitVec.toNat_and]
  exact Nat.lt_of_le_of_lt Nat.and_le_right (by decide)

/-- The registers say what `init_stage2_translation_table` chose, the number of descriptors of
the root table is a power of two, and the root table covers the input addresses. -/
theorem lookup_cases : ∀ n < 16,
    vtcrT0sz (vtcrValue (BitVec.ofNat 64 n)) = (initialLookup (BitVec.ofNat 64 n)).1 ∧
    levelsBelow (vtcrSl0 (vtcrValue (BitVec.ofNat 64 n))) =
      3 - (initialLookup (BitVec.ofNat 64 n)).2 ∧
    (∃ e < 4, numberOfConcatenatedPageTables (initialLookup (BitVec.ofNat 64 n)).1
      (3 - (initialLookup (BitVec.ofNat 64 n)).2) = 2 ^ e) ∧
    (initialLookup (BitVec.ofNat 64 n)).1 ≤ 32 ∧
    2 ^ (64 - (initialLookup (BitVec.ofNat 64 n)).1) ≤
      numberOfConcatenatedPageTables (initialLookup (BitVec.ofNat 64 n)).1
        (3 - (initialLookup (BitVec.ofNat 64 n)).2) * 512 *
          blockSize (3 - (initialLookup (BitVec.ofNat 64 n)).2) := by
  decide

/-- The levels below the root table and the number of its descriptors, from the registers. -/
def rootLevels (regs : Stage2Registers) : ℕ :=
  levelsBelow (vtcrSl0 regs.vtcrEl2)

def rootDescriptors (regs : Stage2Registers) : ℕ :=
  numberOfConcatenatedPageTables (vtcrT0sz regs.vtcrEl2) (rootLevels regs) * 512

/-- The value of `VTCR_EL2` is one that `init_stage2_translation_table` writes. -/
def Initialised (regs : Stage2Registers) : Prop :=
  ∃ v : BitVec 64, regs.vtcrEl2 = vtcrValue (v &&& idAa64mmfr0El1Parange)

theorem Initialised.root {regs : Stage2Registers} (h : Initialised regs) :
    (∃ e, rootDescriptors regs = 2 ^ e) ∧ vtcrT0sz regs.vtcrEl2 ≤ 32 ∧
      2 ^ (64 - vtcrT0sz regs.vtcrEl2) ≤ rootDescriptors regs * blockSize (rootLevels regs) := by
  obtain ⟨v, hv⟩ := h
  obtain ⟨n, hn, hps⟩ := exists_parange v
  obtain ⟨h1, h2, ⟨e, -, h3⟩, h4, h5⟩ := lookup_cases n hn
  rw [rootDescriptors, rootLevels, hv, hps, h1, h2]
  refine ⟨⟨e + 9, ?_⟩, h4, h5⟩
  rw [h3, pow_add]
  rfl

/-- The base of the table, for the hardware and for the code. -/
theorem translationBase_ofNat {p : ℕ} (hp : 4096 ∣ p) (hlt : p < 2 ^ 48) :
    translationBase (BitVec.ofNat 64 p) = p := by
  have hmask : (0xFFFFFFFFFFFE#64).toNat = bitNot 48 (2 ^ 1 - 1) := rfl
  rw [translationBase, BitVec.toNat_and, hmask, BitVec.toNat_ofNat, Nat.mod_eq_of_lt (by omega),
    land_bitNot_two_pow (by decide) hlt]
  omega

theorem vttbrBaddr_and {v : BitVec 64} (hlt : v.toNat < 2 ^ 47) :
    (v &&& vttbrBaddr).toNat = translationBase v := by
  have h1 : vttbrBaddr.toNat = bitNot 47 (2 ^ 1 - 1) := by decide
  have h2 : (0xFFFFFFFFFFFE#64).toNat = bitNot 48 (2 ^ 1 - 1) := rfl
  rw [translationBase, BitVec.toNat_and, BitVec.toNat_and, h1, h2,
    land_bitNot_two_pow (by decide) hlt, land_bitNot_two_pow (by decide) (by omega)]

section Run

variable {σ : Type} (P : PageSource σ)

/-! ## One call -/

/-- The descriptors that translation with `regs` can read. -/
def translationWords (regs : Stage2Registers) (memory : ℕ → BitVec 64) : Set ℕ :=
  tableWords memory (rootLevels regs) (translationBase regs.vttbrEl2) (rootDescriptors regs)

/-- A translation table between two calls. -/
structure TableState (regs : Stage2Registers) (memory : ℕ → BitVec 64) (pages : σ) : Prop where
  initialised : Initialised regs
  valid : P.Valid pages
  wellFormed : TableWellFormed memory (rootLevels regs) (translationBase regs.vttbrEl2)
    (rootDescriptors regs)
  apart : Disjoint (translationWords regs memory) (P.free pages)

/-- What a call left alone : pages that it did not take and that are not part of the table. -/
structure TableChange (regs : Stage2Registers) (owned : Set ℕ) (memory : ℕ → BitVec 64) (pages : σ)
    (memory' : ℕ → BitVec 64) (pages' : σ) : Prop where
  later : P.Later pages pages'
  free : P.free pages' ⊆ P.free pages
  frame : ∀ b, b ∉ owned → b ∉ P.free pages → memory' b = memory b
  grows : translationWords regs memory' ⊆ owned ∪ (P.free pages \ P.free pages')

variable {P} {regs : Stage2Registers} {memory memory' : ℕ → BitVec 64} {pages pages' : σ}

theorem translate_of_lt {x : ℕ} (hx : x < 2 ^ (64 - vtcrT0sz regs.vtcrEl2)) :
    translate regs memory x = walk memory (rootLevels regs) (translationBase regs.vttbrEl2 +
      8 * (x / blockSize (rootLevels regs))) x :=
  if_pos hx

/-- Memory that agrees on the table translates the same. -/
theorem translate_congr (hregs : Initialised regs)
    (h : ∀ b ∈ translationWords regs memory, memory' b = memory b) (x : ℕ) :
    translate regs memory' x = translate regs memory x := by
  by_cases hx : x < 2 ^ (64 - vtcrT0sz regs.vtcrEl2)
  · have hlt : x / blockSize (rootLevels regs) < rootDescriptors regs :=
      (Nat.div_lt_iff_lt_mul (blockSize_pos _)).mpr (hx.trans_le hregs.root.2.2)
    rw [translate_of_lt hx, translate_of_lt hx]
    exact walk_congr (fun b hb => h b ⟨_, hlt, hb⟩) x
  · rw [translate, translate, if_neg hx, if_neg hx]

theorem initStage2TranslationTable_spec {v : BitVec 64} (hv : P.Valid pages)
    (h : initStage2TranslationTable P.allocatePages v memory pages =
      .ok (regs, memory', pages')) :
    TableState P regs memory' pages' ∧ TableChange P regs ∅ memory pages memory' pages' ∧
      (∀ x, translate regs memory' x = none) ∧
      ∃ p ∈ P.free pages, regs.vttbrEl2 = BitVec.ofNat 64 p := by
  obtain ⟨n, hn, hps⟩ := exists_parange v
  obtain ⟨h1, h2, ⟨e, he, h3⟩, -, -⟩ := lookup_cases n hn
  simp only [initStage2TranslationTable, hps, Exec.bind_eq_ok] at h
  obtain ⟨⟨_ | p, pages₁⟩, hp, h⟩ := h
  · cases h
  cases h
  rw [h3] at hp
  have he' : 2 ^ e ≤ 2 ^ 3 := Nat.pow_le_pow_right (by decide) (by omega)
  obtain ⟨hvalid, hlater, hdvd, hsub, hfree⟩ := P.allocated (by omega) hv hp
  have hpos := Nat.two_pow_pos e
  have hp12 : 4096 ∣ p :=
    (pow_dvd_pow 2 (show 12 ≤ 12 + 2 ^ e - 1 by omega)).trans hdvd
  have hlt : p < 2 ^ 48 := P.bound hv p (hsub ⟨le_rfl, by omega⟩)
  have hbase : translationBase (BitVec.ofNat 64 p) = p := translationBase_ofNat hp12 hlt
  set regs : Stage2Registers := ⟨vtcrValue (BitVec.ofNat 64 n), BitVec.ofNat 64 p⟩ with hregs
  have hinit : Initialised regs := ⟨v, by rw [hps]⟩
  have hcount : rootDescriptors regs = 2 ^ e * 512 := by
    rw [rootDescriptors, rootLevels, h1, h2, h3]
  rw [h3]
  obtain ⟨hw, hwf, hwalk⟩ := zeroTable_spec (k := rootLevels regs) (p := p) (n := 2 ^ e * 512)
    (fun b _ => rfl : ∀ b ∈ _, zeroTable memory p (2 ^ e * 512) b = _)
  have hwords : translationWords regs (zeroTable memory p (2 ^ e * 512)) =
      {b | ∃ j < 2 ^ e * 512, b = p + 8 * j} := by
    rw [translationWords, hcount, hbase, hw]
  refine ⟨⟨hinit, hvalid, ?_, ?_⟩, ⟨hlater, hfree.trans Set.sdiff_subset, fun b _ hb => ?_, ?_⟩,
    fun x => ?_, p, hsub ⟨le_rfl, by omega⟩, rfl⟩
  · rw [hcount, hbase]
    exact hwf
  · rw [hwords]
    refine Set.disjoint_left.mpr ?_
    rintro _ ⟨j, hj, rfl⟩ hc
    exact (hfree hc).2 ⟨by omega, by omega⟩
  · rw [zeroTable, if_neg fun hc => hb (hsub ⟨hc.1, by omega⟩)]
  · rw [hwords]
    rintro _ ⟨j, hj, rfl⟩
    have hmem : p + 8 * j ∈ Set.Ico p (p + 2 ^ e * 4096) := ⟨by omega, by omega⟩
    exact .inr ⟨hsub hmem, fun hc => (hfree hc).2 hmem⟩
  · by_cases hx : x < 2 ^ (64 - vtcrT0sz regs.vtcrEl2)
    · have hcover := hx.trans_le hinit.root.2.2
      rw [hcount] at hcover
      rw [translate_of_lt hx, hbase]
      exact hwalk _ ((Nat.div_lt_iff_lt_mul (blockSize_pos _)).mpr hcover) x
    · rw [translate, if_neg hx]

/-- The number of levels below the table where the walk of an address ends. -/
def translateLevel (regs : Stage2Registers) (memory : ℕ → BitVec 64) (x : ℕ) : ℕ :=
  walkLevel memory (rootLevels regs) (translationBase regs.vttbrEl2 +
    8 * (x / blockSize (rootLevels regs))) x

section Call

variable {physicalAddress intermediatePhysicalAddress mapSize : ℕ} {isReadable isWritable : Bool}

/-- A call that returned is a mapping through the root table, of whole pages. -/
theorem exists_of_mapAddressStage2 (hinit : Initialised regs) (hlow : regs.vttbrEl2.toNat < 2 ^ 47)
    (h : mapAddressStage2 P.allocatePages regs physicalAddress intermediatePhysicalAddress mapSize
      isReadable isWritable memory pages = .ok (.ok (), memory', pages')) :
    ∃ e, rootDescriptors regs = 2 ^ e ∧ 4096 ∣ mapSize ∧ ∃ s' : MapState σ,
      s'.memory = memory' ∧ s'.pages = pages' ∧
      mapTable (mapEntry P.allocatePages (permissionOf isReadable isWritable) (rootLevels regs))
        (rootLevels regs) (translationBase regs.vttbrEl2) (2 ^ e)
        ⟨physicalAddress, intermediatePhysicalAddress, mapSize, memory, pages⟩ =
          .ok (.ok (), s') := by
  obtain ⟨⟨e, he⟩, -, -⟩ := hinit.root
  rw [mapAddressStage2] at h
  by_cases hmask : mapSize &&& (2 ^ pageShift - 1) ≠ 0
  · rw [if_pos hmask] at h
    cases h
  rw [if_neg hmask] at h
  simp only [Exec.bind_eq_ok] at h
  obtain ⟨⟨r, s'⟩, hmap, h⟩ := h
  obtain ⟨rfl, rfl, rfl⟩ : r = .ok () ∧ s'.memory = memory' ∧ s'.pages = pages' := by
    simpa using Except.ok.inj h
  rw [not_not, show pageShift = 12 from rfl, Nat.and_two_pow_sub_one_eq_mod] at hmask
  have hdescriptors : numberOfConcatenatedPageTables (vtcrT0sz regs.vtcrEl2)
      (levelsBelow (vtcrSl0 regs.vtcrEl2)) * 512 = 2 ^ e := he
  rw [vttbrBaddr_and hlow, hdescriptors] at hmap
  exact ⟨e, he, Nat.dvd_of_mod_eq_zero hmask, s', rfl, rfl, hmap⟩

theorem TableState.rooted (ht : TableState P regs memory pages) (x y z : ℕ) :
    Rooted P (rootLevels regs) (translationBase regs.vttbrEl2) (rootDescriptors regs)
      (⟨x, y, z, memory, pages⟩ : MapState σ) :=
  ⟨ht.valid, ht.wellFormed, ht.apart⟩

/-- Any call with success leaves a translation table, whatever its arguments are. -/
theorem mapAddressStage2_kept (ht : TableState P regs memory pages)
    (hlow : regs.vttbrEl2.toNat < 2 ^ 47)
    (h : mapAddressStage2 P.allocatePages regs physicalAddress intermediatePhysicalAddress mapSize
      isReadable isWritable memory pages = .ok (.ok (), memory', pages')) :
    TableState P regs memory' pages' ∧
      TableChange P regs (translationWords regs memory) memory pages memory' pages' := by
  obtain ⟨e, he, -, s', rfl, rfl, hmap⟩ := exists_of_mapAddressStage2 ht.initialised hlow h
  have hr := ht.rooted physicalAddress intermediatePhysicalAddress mapSize
  rw [he] at hr
  have hm := mapTable_kept (mapEntry_kept _) hr hmap
  rw [← he] at hm
  refine ⟨⟨ht.initialised, hm.valid, hm.wellFormed, ?_⟩, ⟨hm.later, hm.free, hm.frame, hm.grows⟩⟩
  refine Set.disjoint_left.mpr fun b hb hb' => ?_
  obtain hb | hb := hm.grows hb
  · exact Set.disjoint_left.mp ht.apart hb (hm.free hb')
  · exact hb.2 hb'

/-- What a call with success does to the translations, if its range lies in the input addresses and goes
to addresses of 48 bits. -/
theorem mapAddressStage2_remaps (ht : TableState P regs memory pages)
    (hlow : regs.vttbrEl2.toNat < 2 ^ 47)
    (hbound : physicalAddress / 4096 * 4096 + mapSize ≤ 2 ^ 48)
    (hspace : intermediatePhysicalAddress / 4096 * 4096 + mapSize ≤ 2 ^ (64 - vtcrT0sz regs.vtcrEl2))
    (h : mapAddressStage2 P.allocatePages regs physicalAddress intermediatePhysicalAddress mapSize
      isReadable isWritable memory pages = .ok (.ok (), memory', pages')) (x : ℕ) :
    translate regs memory' x =
      (⟨physicalAddress, intermediatePhysicalAddress, mapSize, memory, pages⟩ : MapState σ).remap
        isReadable isWritable (translateLevel regs memory x) (translate regs memory x) x := by
  obtain ⟨e, he, hsize, s', rfl, rfl, hmap⟩ := exists_of_mapAddressStage2 ht.initialised hlow h
  obtain ⟨-, -, hcover⟩ := ht.initialised.root
  obtain ⟨b, s₁, hfirst⟩ := exists_of_mapTable hmap
  have hpos := Nat.pos_of_ne_zero (mapEntry_remaining _ hfirst)
  simp only at hpos
  have hb := blockSize_pos (rootLevels regs)
  have hindex : ∀ x < 2 ^ (64 - vtcrT0sz regs.vtcrEl2),
      x / blockSize (rootLevels regs) < 2 ^ e := fun x hx =>
    (Nat.div_lt_iff_lt_mul hb).mpr (he ▸ hx.trans_le hcover)
  have hr := ht.rooted physicalAddress intermediatePhysicalAddress mapSize
  rw [he] at hr
  have hfits : Fits P (rootLevels regs) (translationBase regs.vttbrEl2) (2 ^ e)
      ⟨physicalAddress, intermediatePhysicalAddress, mapSize, memory, pages⟩ :=
    ⟨hr, hsize, hpos, hbound⟩
  have hq : intermediatePhysicalAddress / blockSize (rootLevels regs) / 2 ^ e = 0 := by
    rw [← page_div_blockSize]
    exact Nat.div_eq_of_lt (hindex _ (by omega))
  have hm := hfits.mapTable (mapEntry_spec _) hq hmap
  by_cases hx : x < 2 ^ (64 - vtcrT0sz regs.vtcrEl2)
  · have hlt := hindex x hx
    have := hm.translates x (by simp) (by omega)
    rw [Nat.mul_zero, Nat.sub_zero] at this
    rw [translate_of_lt hx, translate_of_lt hx, this]
    rfl
  · rw [translate, translate, if_neg hx, if_neg hx, MapState.remap, if_neg, ite_self]
    rintro ⟨-, hlt⟩
    simp only [MapState.intermediatePage] at hlt
    omega

/-- The addresses of the region where a walk ends are all translated, or none of them. -/
theorem translate_eq_none_iff {x y : ℕ} (hx : x < 2 ^ (64 - vtcrT0sz regs.vtcrEl2))
    (hy : y < 2 ^ (64 - vtcrT0sz regs.vtcrEl2))
    (h : y / blockSize (translateLevel regs memory x) = x / blockSize (translateLevel regs memory x)) :
    translate regs memory y = none ↔ translate regs memory x = none := by
  rw [translate_of_lt hx, translate_of_lt hy, div_blockSize_congr (walkLevel_le _ _ _) h]
  exact walk_eq_none_iff h

/-- A range without translations does not take any away. -/
theorem remap_of_faults {s : MapState σ}
    (hspace : s.intermediatePage + s.remainingSize ≤ 2 ^ (64 - vtcrT0sz regs.vtcrEl2))
    (hfaults : ∀ y, s.InRange y → translate regs memory y = none) (x : ℕ) :
    s.remap isReadable isWritable (translateLevel regs memory x) (translate regs memory x) x =
      if s.InRange x then some ⟨s.physicalPage + (x - s.intermediatePage), isReadable, isWritable⟩
      else translate regs memory x := by
  rw [MapState.remap]
  by_cases htouches : s.Touches (translateLevel regs memory x) x
  · have hnone : translate regs memory x = none := by
      by_cases hx : x < 2 ^ (64 - vtcrT0sz regs.vtcrEl2)
      · obtain ⟨y, hy, hxy⟩ := MapState.touches_iff.mp htouches
        have hlt := hy.2
        exact (translate_eq_none_iff hx (by omega) hxy).mp (hfaults y hy)
      · rw [translate, if_neg hx]
    rw [hnone, ite_self]
  · rw [if_neg htouches]

theorem mapAddressStage2_spec (ht : TableState P regs memory pages)
    (hlow : regs.vttbrEl2.toNat < 2 ^ 47) (hpa : 4096 ∣ physicalAddress)
    (hipa : 4096 ∣ intermediatePhysicalAddress)
    (hbound : physicalAddress + mapSize ≤ 2 ^ 48)
    (hspace : intermediatePhysicalAddress + mapSize ≤ 2 ^ (64 - vtcrT0sz regs.vtcrEl2))
    (hfaults : ∀ x, intermediatePhysicalAddress ≤ x → x < intermediatePhysicalAddress + mapSize →
      translate regs memory x = none)
    (h : mapAddressStage2 P.allocatePages regs physicalAddress intermediatePhysicalAddress mapSize
      isReadable isWritable memory pages = .ok (.ok (), memory', pages')) :
    TableState P regs memory' pages' ∧
      TableChange P regs (translationWords regs memory) memory pages memory' pages' ∧
      ∀ x, translate regs memory' x =
        if intermediatePhysicalAddress ≤ x ∧ x < intermediatePhysicalAddress + mapSize then
          some ⟨physicalAddress + (x - intermediatePhysicalAddress), isReadable, isWritable⟩
        else translate regs memory x := by
  obtain ⟨ht', hchange⟩ := mapAddressStage2_kept ht hlow h
  have hpa' := Nat.div_mul_cancel hpa
  have hipa' := Nat.div_mul_cancel hipa
  refine ⟨ht', hchange, fun x => ?_⟩
  rw [mapAddressStage2_remaps ht hlow (by rwa [hpa']) (by rwa [hipa']) h x, remap_of_faults]
  · simp only [MapState.InRange, MapState.intermediatePage, MapState.physicalPage, hpa', hipa']
  · simpa only [MapState.intermediatePage, hipa'] using hspace
  · simpa only [MapState.InRange, MapState.intermediatePage, hipa', and_imp] using hfaults

end Call

/-! ## Runs -/

/-- The arguments of a call of `map_address_stage2`. -/
structure Mapping where
  physicalAddress : ℕ
  intermediatePhysicalAddress : ℕ
  mapSize : ℕ
  isReadable : Bool
  isWritable : Bool

namespace Mapping

variable (c : Mapping)

/-- The intermediate physical addresses of the range. -/
def range : Set ℕ :=
  Set.Ico c.intermediatePhysicalAddress (c.intermediatePhysicalAddress + c.mapSize)

/-- The translation of an address of the range. -/
def translation (x : ℕ) : Translation :=
  ⟨c.physicalAddress + (x - c.intermediatePhysicalAddress), c.isReadable, c.isWritable⟩

end Mapping

/-- A run : the table is made, and then any number of disjoint ranges are mapped, all with
success. -/
inductive MapRun (P : PageSource σ) :
    Stage2Registers → List Mapping → (ℕ → BitVec 64) → σ → Prop
  | init {regs : Stage2Registers} {memory memory' : ℕ → BitVec 64} {pages pages' : σ}
      (v : BitVec 64) (hv : P.Valid pages)
      (h : initStage2TranslationTable P.allocatePages v memory pages =
        .ok (regs, memory', pages')) : MapRun P regs [] memory' pages'
  | map {regs : Stage2Registers} {maps : List Mapping} {memory memory' : ℕ → BitVec 64}
      {pages pages' : σ} (c : Mapping) (hrun : MapRun P regs maps memory pages)
      (hpa : 4096 ∣ c.physicalAddress) (hipa : 4096 ∣ c.intermediatePhysicalAddress)
      (hsize : c.mapSize ≠ 0) (hbound : c.physicalAddress + c.mapSize ≤ 2 ^ 48)
      (hspace : c.intermediatePhysicalAddress + c.mapSize ≤ 2 ^ (64 - vtcrT0sz regs.vtcrEl2))
      (hdisjoint : ∀ d ∈ maps, Disjoint c.range d.range)
      (h : mapAddressStage2 P.allocatePages regs c.physicalAddress c.intermediatePhysicalAddress
        c.mapSize c.isReadable c.isWritable memory pages = .ok (.ok (), memory', pages')) :
      MapRun P regs (c :: maps) memory' pages'

/-- The table translates the ranges, and nothing else. -/
def TranslatesExactly (regs : Stage2Registers) (maps : List Mapping) (memory : ℕ → BitVec 64) :
    Prop :=
  (∀ c ∈ maps, ∀ x ∈ c.range, translate regs memory x = some (c.translation x)) ∧
    ∀ x, (∀ c ∈ maps, x ∉ c.range) → translate regs memory x = none

variable {maps : List Mapping}

theorem mapRun_invariant (h : MapRun P regs maps memory pages)
    (hlow : regs.vttbrEl2.toNat < 2 ^ 47) :
    TableState P regs memory pages ∧ TranslatesExactly regs maps memory := by
  induction h with
  | init v hv h =>
    obtain ⟨ht, -, hnone, -⟩ := initStage2TranslationTable_spec hv h
    exact ⟨ht, by simp, fun x _ => hnone x⟩
  | map c _ hpa hipa hsize hbound hspace hdisjoint h ih =>
    obtain ⟨ht, hsome, hnone⟩ := ih
    obtain ⟨ht', -, htranslate⟩ := mapAddressStage2_spec ht hlow hpa hipa hbound hspace
      (fun x hx hx' => hnone x fun d hd hc =>
        Set.disjoint_left.mp (hdisjoint d hd) (show x ∈ c.range from ⟨hx, hx'⟩) hc) h
    refine ⟨ht', fun d hd x hx => ?_, fun x hx => ?_⟩
    · rw [htranslate x]
      rcases List.mem_cons.mp hd with rfl | hd
      · exact if_pos hx
      · refine (if_neg fun hc => ?_).trans (hsome d hd x hx)
        exact Set.disjoint_left.mp (hdisjoint d hd) (show x ∈ c.range from hc) hx
    · rw [htranslate x]
      exact (if_neg (hx c List.mem_cons_self)).trans
        (hnone x fun d hd => hx d (List.mem_cons_of_mem c hd))

/-- In every run with the root table below `2 ^ 47`, the walk of the table translates each address
of each range linearly, with the permission that was asked for, and faults everywhere else. -/
theorem mapRun_translates (h : MapRun P regs maps memory pages)
    (hlow : regs.vttbrEl2.toNat < 2 ^ 47) : TranslatesExactly regs maps memory :=
  (mapRun_invariant h hlow).2

end Run

/-- Pages taken one after the other, up to `2 ^ 48`. -/
def nextPages : PageSource ℕ where
  allocatePages n align g :=
    let p := (g + 2 ^ align - 1) / 2 ^ align * 2 ^ align
    if p + n * 4096 ≤ 2 ^ 48 then .ok (some p, p + n * 4096) else .ok (none, g)
  Valid _ := True
  free g := Set.Ico g (2 ^ 48)
  Later _ _ := True
  later_refl _ := trivial
  later_trans _ _ := trivial
  allocated := by
    intro n align p g g' _ _ h
    simp only at h
    by_cases hle : (g + 2 ^ align - 1) / 2 ^ align * 2 ^ align + n * 4096 ≤ 2 ^ 48
    swap
    · rw [if_neg hle] at h
      cases h
    rw [if_pos hle] at h
    cases h
    have hge : g ≤ (g + 2 ^ align - 1) / 2 ^ align * 2 ^ align := by
      have := Nat.lt_div_mul_add (a := g + 2 ^ align - 1) (Nat.two_pow_pos align)
      omega
    refine ⟨trivial, trivial, Nat.dvd_mul_left _ _, fun b hb => ?_, fun b hb => ?_⟩
    · exact ⟨hge.trans hb.1, hb.2.trans_le hle⟩
    · have h1 := hb.1
      exact ⟨⟨by omega, hb.2⟩, fun hc => by have := hc.2; omega⟩
  bound := fun _ _ hb => hb.2

/-- A page of the guest's memory. -/
def examplePage : Mapping := ⟨0x80000000, 0x40000000, 0x1000, true, true⟩

/-- The page is mapped on a host with this `ID_AA64MMFR0_EL1`, with tables from `g` on. -/
def mapExamplePage (idAa64mmfr0El1 : BitVec 64) (g : ℕ) :
    Exec (Stage2Registers × Except Unit Unit × (ℕ → BitVec 64) × ℕ) := do
  let (regs, memory, g) ← initStage2TranslationTable nextPages.allocatePages idAa64mmfr0El1
    (fun _ => 0#64) g
  let r ← mapAddressStage2 nextPages.allocatePages regs examplePage.physicalAddress
    examplePage.intermediatePhysicalAddress examplePage.mapSize examplePage.isReadable
    examplePage.isWritable memory g
  pure (regs, r)

/-- What can be computed of the outcome : the base of the table, and a translation. -/
def examplePageOutcome (idAa64mmfr0El1 : BitVec 64) (g : ℕ) : Option (ℕ × ℕ × Option Translation) :=
  match mapExamplePage idAa64mmfr0El1 g with
  | .ok (regs, .ok (), memory, _) =>
    some (vtcrT0sz regs.vtcrEl2, regs.vttbrEl2.toNat, translate regs memory 0x40000000)
  | _ => none

theorem mapRun_of_outcome (idAa64mmfr0El1 : BitVec 64) (g : ℕ) {t0sz base : ℕ} {t : Option Translation}
    (ht0sz : t0sz ≤ 32) (h : examplePageOutcome idAa64mmfr0El1 g = some (t0sz, base, t)) :
    ∃ regs memory pages, MapRun nextPages regs [examplePage] memory pages ∧ regs.vttbrEl2.toNat = base ∧
      translate regs memory 0x40000000 = t := by
  unfold examplePageOutcome at h
  split at h
  · next regs memory pages hrun =>
    simp only [Option.some.injEq, Prod.mk.injEq] at h
    obtain ⟨rfl, hbase, ht⟩ := h
    refine ⟨regs, memory, pages, ?_, hbase, ht⟩
    simp only [mapExamplePage, Exec.bind_eq_ok] at hrun
    obtain ⟨⟨regs₁, memory₁, g₁⟩, h₁, ⟨r, memory₂, g₂⟩, h₂, hrun⟩ := hrun
    cases hrun
    have hin : examplePage.intermediatePhysicalAddress + examplePage.mapSize ≤ 2 ^ 32 := by decide
    exact .map examplePage (.init idAa64mmfr0El1 trivial h₁) (by decide) (by decide) (by decide)
      (by decide)
      (hin.trans (Nat.pow_le_pow_right (by decide) (by omega))) (by simp) h₂
  · cases h

/-- The page is mapped with the tables from `0x1000` on. -/
theorem mapRun_translates_page : ∃ regs memory pages,
    MapRun nextPages regs [examplePage] memory pages ∧ regs.vttbrEl2.toNat < 2 ^ 47 ∧
      TranslatesExactly regs [examplePage] memory := by
  obtain ⟨regs, memory, pages, h, hbase, -⟩ := mapRun_of_outcome 0#64 0x1000 le_rfl
    (show _ = some (32, 0x1000, some ⟨0x80000000, true, true⟩) by decide +kernel)
  have hlow : regs.vttbrEl2.toNat < 2 ^ 47 := by
    rw [hbase]
    decide
  exact ⟨regs, memory, pages, h, hlow, mapRun_translates h hlow⟩

/-- On a host with 48 bits of physical addresses and the root table behind `2 ^ 47` the page that
was mapped faults. -/
theorem mapRun_faults : ∃ regs memory pages,
    MapRun nextPages regs [examplePage] memory pages ∧ regs.vttbrEl2.toNat = 0x800000010000 ∧
      translate regs memory 0x40000000 = none ∧
        ¬ TranslatesExactly regs [examplePage] memory := by
  obtain ⟨regs, memory, pages, h, hbase, hnone⟩ := mapRun_of_outcome 0b101#64 0x800000010000
    (show 16 ≤ 32 by decide) (show _ = some (16, 0x800000010000, none) by decide +kernel)
  refine ⟨regs, memory, pages, h, hbase, hnone, fun hc => ?_⟩
  have := hc.1 examplePage (by simp) 0x40000000 ⟨by decide, by decide⟩
  rw [hnone] at this
  cases this

end MiniVisor
