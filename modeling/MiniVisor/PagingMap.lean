import MiniVisor.PagingWalk

/-!
# Mapping a range

Whatever its arguments are, a mapping writes only descriptors of its own tree and of pages it has taken,
and what it leaves is a tree again (`Kept`). Where the range lies in the regions of the descriptors and
below `2 ^ 48` it also translates them, from the page of the one address to that of the other (`Mapped`).
Every other translation stays as it was, unless it comes from a block that has an address of the range : a
table takes its place, and what is not mapped there faults (`MapState.remap`).

Both are by induction on the level : a descriptor is a leaf, or the descriptors of the table below it are
mapped by the same theorem one level down. Consecutive descriptors compose by `Kept.append` and
`Mapped.append`.

Where the pages come from is a `PageSource` : it hands out pages that are aligned and free, and
they are not free any more. `Later` is what else the source wants to know about its states.
-/

namespace MiniVisor

open Machine

/-- A source of pages, with the bytes it has left. -/
structure PageSource (σ : Type) where
  allocatePages : ℕ → ℕ → σ → Exec (Option ℕ × σ)
  Valid : σ → Prop
  free : σ → Set ℕ
  Later : σ → σ → Prop
  later_refl : ∀ g, Later g g
  later_trans : ∀ {g g' g'' : σ}, Later g g' → Later g' g'' → Later g g''
  allocated : ∀ {n align p : ℕ} {g g' : σ}, n < 2 ^ 52 → Valid g →
    allocatePages n align g = .ok (some p, g') →
      Valid g' ∧ Later g g' ∧ 2 ^ align ∣ p ∧ Set.Ico p (p + n * 4096) ⊆ free g ∧
        free g' ⊆ free g \ Set.Ico p (p + n * 4096)
  bound : ∀ {g : σ}, Valid g → ∀ b ∈ free g, b < 2 ^ 48

/-! ## The range -/

namespace MapState

variable {σ : Type} (s : MapState σ)

/-- The pages of the two addresses. -/
def physicalPage : ℕ := s.physicalAddress / 4096 * 4096

def intermediatePage : ℕ := s.intermediatePhysicalAddress / 4096 * 4096

/-- The address lies in one of the pages that are still to be mapped. -/
def InRange (x : ℕ) : Prop :=
  s.intermediatePage ≤ x ∧ x < s.intermediatePage + s.remainingSize

/-- The region of the address at level `j` has one of these pages. -/
def Touches (j x : ℕ) : Prop :=
  0 < s.remainingSize ∧ s.intermediatePage < (x / blockSize j + 1) * blockSize j ∧
    x / blockSize j * blockSize j < s.intermediatePage + s.remainingSize

instance (x : ℕ) : Decidable (s.InRange x) :=
  inferInstanceAs (Decidable (_ ∧ _))

instance (j x : ℕ) : Decidable (s.Touches j x) :=
  inferInstanceAs (Decidable (_ ∧ _))

/-- What an address translates to after the range was mapped, if before its walk ended at level `j` with
`old`. -/
def remap (isReadable isWritable : Bool) (j : ℕ) (old : Option Translation) (x : ℕ) :
    Option Translation :=
  if s.InRange x then
    some ⟨s.physicalPage + (x - s.intermediatePage), isReadable, isWritable⟩
  else if s.Touches j x then none else old

variable {s}

/-- The addresses of a region. -/
theorem div_blockSize_eq_iff {j x y : ℕ} : y / blockSize j = x / blockSize j ↔
    x / blockSize j * blockSize j ≤ y ∧ y < (x / blockSize j + 1) * blockSize j := by
  rw [Nat.div_eq_iff (blockSize_pos j), Nat.add_mul, Nat.one_mul]
  have := blockSize_pos j
  omega

theorem touches_iff {j x : ℕ} :
    s.Touches j x ↔ ∃ y, s.InRange y ∧ y / blockSize j = x / blockSize j := by
  simp only [div_blockSize_eq_iff]
  constructor
  · rintro ⟨hpos, hlt, hlt'⟩
    have hself : x / blockSize j * blockSize j < (x / blockSize j + 1) * blockSize j :=
      Nat.mul_lt_mul_of_pos_right (Nat.lt_succ_self _) (blockSize_pos j)
    refine ⟨max s.intermediatePage (x / blockSize j * blockSize j), ⟨?_, ?_⟩, ?_, ?_⟩
    · exact le_max_left ..
    · exact max_lt (by omega) hlt'
    · exact le_max_right ..
    · exact max_lt hlt hself
  · rintro ⟨y, ⟨hle, hlt⟩, hle', hlt'⟩
    exact ⟨by omega, by omega, by omega⟩

end MapState

section Map

variable {σ : Type} (P : PageSource σ) (isReadable isWritable : Bool)

/-- `n` descriptors at `a` form a tree, without pages that are free. -/
structure Rooted (k a n : ℕ) (s : MapState σ) : Prop where
  valid : P.Valid s.pages
  wellFormed : TableWellFormed s.memory k a n
  apart : Disjoint (tableWords s.memory k a n) (P.free s.pages)

/-- What a mapping through these descriptors keeps. -/
structure Kept (k a n : ℕ) (s s' : MapState σ) : Prop where
  valid : P.Valid s'.pages
  later : P.Later s.pages s'.pages
  free : P.free s'.pages ⊆ P.free s.pages
  frame : ∀ b, b ∉ tableWords s.memory k a n → b ∉ P.free s.pages → s'.memory b = s.memory b
  grows : tableWords s'.memory k a n ⊆
    tableWords s.memory k a n ∪ (P.free s.pages \ P.free s'.pages)
  wellFormed : TableWellFormed s'.memory k a n

/-- `n` descriptors at `a`, of the regions from `q` on, can take what they cover of the range of `s`. -/
structure Fits (k a n : ℕ) (s : MapState σ) : Prop extends Rooted P k a n s where
  alignedSize : 4096 ∣ s.remainingSize
  nonempty : 0 < s.remainingSize
  bound : s.physicalPage + s.remainingSize ≤ 2 ^ 48

/-- Moreover the range starts in the first of them. -/
structure Ready (k a n q : ℕ) (s : MapState σ) : Prop extends Fits P k a n s where
  first : s.intermediatePhysicalAddress / blockSize k = q

/-- The range was mapped, as far as the descriptors go. -/
structure Mapped (k a n q : ℕ) (s s' : MapState σ) : Prop extends Kept P k a n s s' where
  remaining : s'.remainingSize = s.remainingSize - ((q + n) * blockSize k - s.intermediatePage)
  ipa : s'.intermediatePhysicalAddress + s'.remainingSize =
    s.intermediatePhysicalAddress + s.remainingSize
  pa : s'.physicalAddress + s'.remainingSize = s.physicalAddress + s.remainingSize
  translates : ∀ x, q ≤ x / blockSize k → x / blockSize k < q + n →
    walk s'.memory k (a + 8 * (x / blockSize k - q)) x =
      s.remap isReadable isWritable (walkLevel s.memory k (a + 8 * (x / blockSize k - q)) x)
        (walk s.memory k (a + 8 * (x / blockSize k - q)) x) x

variable {P isReadable isWritable} {k a m n q : ℕ} {s s₁ s' : MapState σ}

/-! ## Consecutive descriptors -/

theorem tableWords_congr {memory memory' : ℕ → BitVec 64}
    (h : ∀ b ∈ tableWords memory k a n, memory' b = memory b) :
    tableWords memory' k a n = tableWords memory k a n := by
  ext b
  refine exists_congr fun j => and_congr_right fun hj => ?_
  rw [words_congr fun b hb => h b ⟨j, hj, hb⟩]

theorem tableWellFormed_congr {memory memory' : ℕ → BitVec 64}
    (h : ∀ b ∈ tableWords memory k a n, memory' b = memory b)
    (hw : TableWellFormed memory k a n) : TableWellFormed memory' k a n := by
  have hj : ∀ j < n, ∀ b ∈ words memory k (a + 8 * j), memory' b = memory b :=
    fun j hj b hb => h b ⟨j, hj, hb⟩
  refine ⟨fun j hlt => wellFormed_congr (hj j hlt) (hw.1 j hlt), fun i hi j hlt hij => ?_⟩
  rw [words_congr (hj i hi), words_congr (hj j hlt)]
  exact hw.2 i hi j hlt hij

/-- The first descriptors, and the others. -/
theorem Rooted.split (h : Rooted P k a (m + n) s) :
    Rooted P k a m s ∧ Rooted P k (a + 8 * m) n s := by
  obtain ⟨h₁, h₂, -⟩ := tableWellFormed_add.mp h.wellFormed
  have hapart := h.apart
  rw [tableWords_add] at hapart
  exact ⟨⟨h.valid, h₁, hapart.mono_left Set.subset_union_left⟩,
    ⟨h.valid, h₂, hapart.mono_left Set.subset_union_right⟩⟩

theorem Rooted.kept (h : Rooted P k a n s) : Kept P k a n s s :=
  ⟨h.valid, P.later_refl _, subset_rfl, fun _ _ _ => rfl, Set.subset_union_left, h.wellFormed⟩

/-- What happened at the first descriptors leaves the others as they were. -/
theorem Kept.others (h : Kept P k a m s s₁) (hr : Rooted P k a (m + n) s) :
    ∀ b ∈ tableWords s.memory k (a + 8 * m) n, s₁.memory b = s.memory b := by
  intro b hb
  obtain ⟨-, -, hd⟩ := tableWellFormed_add.mp hr.wellFormed
  exact h.frame b (Set.disjoint_right.mp hd hb) (Set.disjoint_left.mp hr.split.2.apart hb)

theorem Kept.rooted (h : Kept P k a m s s₁) (hr : Rooted P k a (m + n) s) :
    Rooted P k (a + 8 * m) n s₁ := by
  have hothers := h.others hr
  refine ⟨h.valid, tableWellFormed_congr hothers hr.split.2.wellFormed, ?_⟩
  rw [tableWords_congr hothers]
  exact hr.split.2.apart.mono_right h.free

/-- The descriptors of the first tree are apart from the others and from what is free. -/
theorem Kept.apart (h : Kept P k a m s s₁) (hr : Rooted P k a (m + n) s) :
    ∀ b ∈ tableWords s₁.memory k a m, b ∉ tableWords s₁.memory k (a + 8 * m) n ∧
      b ∉ P.free s₁.pages := by
  intro b hb
  obtain ⟨-, -, hd⟩ := tableWellFormed_add.mp hr.wellFormed
  rw [tableWords_congr (h.others hr)]
  obtain hb | hb := h.grows hb
  · exact ⟨Set.disjoint_left.mp hd hb, fun hc =>
      Set.disjoint_left.mp hr.split.1.apart hb (h.free hc)⟩
  · exact ⟨fun hc => Set.disjoint_left.mp hr.split.2.apart hc hb.1, hb.2⟩

/-- What happens at the others leaves the first ones as they are. -/
theorem Kept.before (h : Kept P k a m s s₁) (hr : Rooted P k a (m + n) s)
    (h' : Kept P k (a + 8 * m) n s₁ s') :
    ∀ b ∈ tableWords s₁.memory k a m, s'.memory b = s₁.memory b :=
  fun b hb => h'.frame b (h.apart hr b hb).1 (h.apart hr b hb).2

theorem Kept.append (h : Kept P k a m s s₁) (hr : Rooted P k a (m + n) s)
    (h' : Kept P k (a + 8 * m) n s₁ s') : Kept P k a (m + n) s s' := by
  have hothers := h.others hr
  have hbefore := h.before hr h'
  have hgrows' := h'.grows
  rw [tableWords_congr hothers] at hgrows'
  refine ⟨h'.valid, P.later_trans h.later h'.later, h'.free.trans h.free, fun b hb hbf => ?_, ?_, ?_⟩
  · rw [tableWords_add] at hb
    rw [h'.frame b _ fun hc => hbf (h.free hc), h.frame b (fun hc => hb (.inl hc)) hbf]
    rw [tableWords_congr hothers]
    exact fun hc => hb (.inr hc)
  · rw [tableWords_add, tableWords_add, tableWords_congr hbefore]
    rintro b (hb | hb)
    · obtain hb | hb := h.grows hb
      · exact .inl (.inl hb)
      · exact .inr ⟨hb.1, fun hc => hb.2 (h'.free hc)⟩
    · obtain hb | hb := hgrows' hb
      · exact .inl (.inr hb)
      · exact .inr ⟨h.free hb.1, hb.2⟩
  · rw [tableWellFormed_add, tableWords_congr hbefore]
    refine ⟨tableWellFormed_congr hbefore h.wellFormed, h'.wellFormed, ?_⟩
    refine Set.disjoint_left.mpr fun b hb hb' => ?_
    obtain hb' | hb' := h'.grows hb'
    · exact (h.apart hr b hb).1 hb'
    · exact (h.apart hr b hb).2 hb'.1

/-- Consecutive descriptors, if each of them keeps the rest. -/
theorem mapEntries_kept {entry : ℕ → MapState σ → Exec (Except Unit Unit × MapState σ)}
    (hentry : ∀ {a : ℕ} {s s' : MapState σ}, Rooted P k a 1 s → entry a s = .ok (.ok (), s') →
      Kept P k a 1 s s') :
    ∀ (n a : ℕ) (s : MapState σ), Rooted P k a n s → mapEntries entry n a s = .ok (.ok (), s') →
      Kept P k a n s s'
  | 0, a, s, hr, h => by
    obtain rfl : s = s' := congrArg Prod.snd (Except.ok.inj h)
    exact hr.kept
  | n + 1, a, s, hr, h => by
    rw [Nat.add_comm] at hr ⊢
    simp only [mapEntries, Exec.bind_eq_ok] at h
    obtain ⟨⟨r, s₁⟩, h₁, h⟩ := h
    cases r with
    | error e => cases h
    | ok u =>
      have hkept := hentry hr.split.1 h₁
      have hrest := hkept.rooted hr
      simp only at h
      split_ifs at h with h0
      · cases h
        exact hkept.append hr hrest.kept
      · exact hkept.append hr (mapEntries_kept hentry n (a + 8) s₁ hrest h)

/-! ## Translations -/

theorem dvd_mul_blockSize (c k : ℕ) : 4096 ∣ c * blockSize k :=
  (pageSize_dvd_blockSize k).mul_left c

/-- The cursors move together, by whole pages. -/
theorem Mapped.cursors (h : Mapped P isReadable isWritable k a m q s s₁)
    (hsize : 4096 ∣ s.remainingSize) :
    s₁.intermediatePage + s₁.remainingSize = s.intermediatePage + s.remainingSize ∧
      s₁.physicalPage + s₁.remainingSize = s.physicalPage + s.remainingSize ∧
      4096 ∣ s₁.remainingSize := by
  have hrem := h.remaining
  have hipa := h.ipa
  have hpa := h.pa
  obtain ⟨c, hc⟩ := dvd_mul_blockSize (q + m) k
  rw [hc] at hrem
  simp only [MapState.intermediatePage, MapState.physicalPage] at hrem ⊢
  omega

/-- Descriptors without a region of the range. -/
theorem Rooted.mapped (hr : Rooted P k a n s)
    (h : s.remainingSize = 0 ∨ (q + n) * blockSize k ≤ s.intermediatePage) :
    Mapped P isReadable isWritable k a n q s s := by
  refine ⟨hr.kept, by omega, rfl, rfl, fun x _ hxn => ?_⟩
  have hx : x < (q + n) * blockSize k := (Nat.div_lt_iff_lt_mul (blockSize_pos k)).mp hxn
  have hlevel : walkLevel s.memory k (a + 8 * (x / blockSize k - q)) x ≤ k := walkLevel_le ..
  have hend := region_le hlevel hx
  rw [MapState.remap, if_neg, if_neg]
  · rintro ⟨hpos, hlt, -⟩
    omega
  · rintro ⟨hle, hlt⟩
    omega

/-- The others take what the first ones have left. -/
theorem Mapped.append (h : Mapped P isReadable isWritable k a m q s s₁)
    (hr : Rooted P k a (m + n) s) (hsize : 4096 ∣ s.remainingSize)
    (h' : Mapped P isReadable isWritable k (a + 8 * m) n (q + m) s₁ s') :
    Mapped P isReadable isWritable k a (m + n) q s s' := by
  have hothers := h.others hr
  have hbefore := h.before hr h'.toKept
  obtain ⟨hend, hpend, -⟩ := h.cursors hsize
  have hrem := h.remaining
  have hrem' := h'.remaining
  have hmono : (q + m) * blockSize k ≤ (q + (m + n)) * blockSize k :=
    Nat.mul_le_mul_right _ (by omega)
  rw [Nat.add_assoc q m n] at hrem'
  refine ⟨h.toKept.append hr h'.toKept, by omega, h'.ipa.trans h.ipa, h'.pa.trans h.pa,
    fun x hx hxn => ?_⟩
  by_cases hxm : x / blockSize k < q + m
  · have hwords : ∀ b ∈ words s₁.memory k (a + 8 * (x / blockSize k - q)), s'.memory b = s₁.memory b :=
      fun b hb => hbefore b ⟨x / blockSize k - q, by omega, hb⟩
    rw [walk_congr hwords]
    exact h.translates x hx hxm
  · have haddr : a + 8 * m + 8 * (x / blockSize k - (q + m)) = a + 8 * (x / blockSize k - q) := by
      omega
    have hwords : ∀ b ∈ words s.memory k (a + 8 * (x / blockSize k - q)), s₁.memory b = s.memory b :=
      fun b hb => hothers b ⟨x / blockSize k - (q + m), by omega, by rwa [haddr]⟩
    have hrest := h'.translates x (by omega) (by omega)
    rw [haddr, walk_congr hwords, walkLevel_congr hwords] at hrest
    rw [hrest]
    -- Behind the first regions the whole range is as far as what is left of it.
    have hle : (q + m) * blockSize k ≤ x :=
      (Nat.le_div_iff_mul_le (blockSize_pos k)).mp (Nat.le_of_not_lt hxm)
    generalize hj : walkLevel s.memory k (a + 8 * (x / blockSize k - q)) x = j
    have hstart : (q + m) * blockSize k ≤ x / blockSize j * blockSize j :=
      le_region (hj ▸ walkLevel_le k _ x) hle
    have hlt : x < (x / blockSize j + 1) * blockSize j := by
      rw [Nat.add_mul, Nat.one_mul]
      exact Nat.lt_div_mul_add (blockSize_pos j)
    have hrange : s₁.InRange x ↔ s.InRange x := by
      rw [MapState.InRange, MapState.InRange]
      omega
    have htouches : s₁.Touches j x ↔ s.Touches j x := by
      rw [MapState.Touches, MapState.Touches]
      omega
    rw [MapState.remap, MapState.remap]
    simp only [hrange, htouches]
    by_cases hin : s.InRange x
    · have hin₁ := hrange.mpr hin
      have haddress : s₁.physicalPage + (x - s₁.intermediatePage) =
          s.physicalPage + (x - s.intermediatePage) := by
        rw [MapState.InRange] at hin hin₁
        omega
      rw [if_pos hin, if_pos hin, haddress]
    · rw [if_neg hin, if_neg hin]

theorem Ready.page_div (h : Ready P k a n q s) : s.intermediatePage / blockSize k = q :=
  (page_div_blockSize k _).trans h.first

/-- The first of the descriptors by itself. -/
theorem Ready.one (h : Ready P k a (1 + n) q s) : Ready P k a 1 q s :=
  ⟨⟨h.toRooted.split.1, h.alignedSize, h.nonempty, h.bound⟩, h.first⟩

/-- After it the rest of the range can go to the others. -/
theorem Mapped.ready (h : Mapped P isReadable isWritable k a 1 q s s₁)
    (hr : Ready P k a (1 + n) q s) (hne : s₁.remainingSize ≠ 0) :
    Ready P k (a + 8) n (q + 1) s₁ := by
  have hb := blockSize_pos k
  obtain ⟨hend, hpend, hsize⟩ := h.cursors hr.alignedSize
  have hrem := h.remaining
  have hbound := hr.bound
  have hlt : s.intermediatePage < (q + 1) * blockSize k := by
    rw [← hr.page_div, Nat.add_mul, Nat.one_mul]
    exact Nat.lt_div_mul_add hb
  have hstart : s₁.intermediatePage = (q + 1) * blockSize k := by omega
  have hfirst : s₁.intermediatePage / blockSize k = q + 1 := by
    rw [hstart, Nat.mul_div_cancel _ hb]
  refine ⟨⟨h.rooted hr.toRooted, hsize, Nat.pos_of_ne_zero hne, by omega⟩, ?_⟩
  rw [← hfirst]
  exact (page_div_blockSize k _).symm

/-- Consecutive descriptors, if each of them maps what it covers. -/
theorem mapEntries_spec {entry : ℕ → MapState σ → Exec (Except Unit Unit × MapState σ)}
    (hentry : ∀ {a q : ℕ} {s s' : MapState σ}, Ready P k a 1 q s →
      entry a s = .ok (.ok (), s') → Mapped P isReadable isWritable k a 1 q s s') :
    ∀ (n a q : ℕ) (s : MapState σ), Ready P k a n q s →
      mapEntries entry n a s = .ok (.ok (), s') → Mapped P isReadable isWritable k a n q s s'
  | 0, a, q, s, hr, h => by
    obtain rfl : s = s' := congrArg Prod.snd (Except.ok.inj h)
    refine hr.toRooted.mapped (.inr ?_)
    rw [Nat.add_zero, ← hr.page_div]
    exact Nat.div_mul_le_self ..
  | n + 1, a, q, s, hr, h => by
    rw [Nat.add_comm] at hr ⊢
    simp only [mapEntries, Exec.bind_eq_ok] at h
    obtain ⟨⟨r, s₁⟩, h₁, h⟩ := h
    cases r with
    | error e => cases h
    | ok u =>
      have hm := hentry hr.one h₁
      simp only at h
      split_ifs at h with h0
      · cases h
        exact hm.append hr.toRooted hr.alignedSize ((hm.rooted hr.toRooted).mapped (.inl h0))
      · exact hm.append hr.toRooted hr.alignedSize
          (mapEntries_spec hentry n (a + 8) (q + 1) s₁ (hm.ready hr h0) h)

/-! ## One descriptor -/

/-- A descriptor that is not a table has nothing below it. -/
theorem words_of_not_table {memory : ℕ → BitVec 64} (h : memory a &&& 0b11#64 ≠ 0b11#64) :
    words memory k a = {a} ∧ WellFormed memory k a := by
  cases k with
  | zero => exact ⟨rfl, trivial⟩
  | succ k =>
    refine ⟨?_, fun ht => absurd ht h⟩
    ext b
    simp [words, h]

/-- The words of a table descriptor. -/
theorem words_of_table {memory : ℕ → BitVec 64} (h : memory a &&& 0b11#64 = 0b11#64) :
    words memory (k + 1) a = {a} ∪ tableWords memory k (descriptorAddress (memory a)) 512 := by
  ext b
  simp [words, tableWords, h]

theorem wellFormed_of_table {memory : ℕ → BitVec 64} (h : memory a &&& 0b11#64 = 0b11#64) :
    WellFormed memory (k + 1) a ↔
      Descriptor.getNextLevelTableAddress (memory a) = descriptorAddress (memory a) ∧
      a ∉ tableWords memory k (descriptorAddress (memory a)) 512 ∧
      TableWellFormed memory k (descriptorAddress (memory a)) 512 := by
  simp only [WellFormed, h, TableWellFormed, true_implies]

theorem walk_of_table {memory : ℕ → BitVec 64} (h : memory a &&& 0b11#64 = 0b11#64) (x : ℕ) :
    walk memory (k + 1) a x =
      walk memory k (descriptorAddress (memory a) + 8 * (x / blockSize k % 512)) x := by
  rw [walk, if_pos h]

theorem walkLevel_of_table {memory : ℕ → BitVec 64} (h : memory a &&& 0b11#64 = 0b11#64) (x : ℕ) :
    walkLevel memory (k + 1) a x =
      walkLevel memory k (descriptorAddress (memory a) + 8 * (x / blockSize k % 512)) x := by
  rw [walkLevel, if_pos h]

theorem walk_zero {memory : ℕ → BitVec 64} (h : memory a = 0#64) (x : ℕ) :
    walk memory k a x = none := by
  cases k <;> simp [walk, h]

/-- A leaf leaves the rest. -/
theorem Rooted.writeLeaf {d : BitVec 64} {size : ℕ} (hr : Rooted P k a 1 s)
    (hwords : ∀ memory, memory a = d → words memory k a = {a} ∧ WellFormed memory k a)
    (h : s.writeLeaf a d size = .ok s') : Kept P k a 1 s s' := by
  simp only [MapState.writeLeaf, Exec.bind_eq_ok] at h
  obtain ⟨_, -, _, -, _, -, h⟩ := h
  cases h
  have hself : Function.update s.memory a d a = d := Function.update_self ..
  refine ⟨hr.valid, P.later_refl _, subset_rfl, fun b hb _ => ?_, ?_,
    tableWellFormed_one.mpr (hwords _ hself).2⟩
  · refine Function.update_of_ne (fun hc => hb ?_) _ _
    rw [hc, tableWords_one]
    exact mem_words_self k a
  · rw [tableWords_one, tableWords_one, (hwords _ hself).1]
    rintro b rfl
    exact .inl (mem_words_self k b)

/-- A leaf for a whole region. -/
theorem Ready.writeLeaf {d : BitVec 64} (hr : Ready P k a 1 q s)
    (hsize : blockSize k ≤ s.remainingSize)
    (hipa : blockSize k ∣ s.intermediatePage)
    (hwords : ∀ memory, memory a = d → words memory k a = {a} ∧ WellFormed memory k a)
    (hwalk : ∀ memory x, memory a = d → walk memory k a x =
      some ⟨s.physicalPage + x % blockSize k, isReadable, isWritable⟩)
    (h : s.writeLeaf a d (blockSize k) = .ok s') :
    Mapped P isReadable isWritable k a 1 q s s' := by
  have hkept := hr.toRooted.writeLeaf hwords h
  simp only [MapState.writeLeaf, Exec.bind_eq_ok] at h
  obtain ⟨_, h1, _, h2, _, h3, h⟩ := h
  cases h
  obtain ⟨-, rfl⟩ := checkedAdd_eq_ok.mp h1
  obtain ⟨-, rfl⟩ := checkedAdd_eq_ok.mp h2
  obtain ⟨-, rfl⟩ := checkedSub_eq_ok.mp h3
  have hself : Function.update s.memory a d a = d := Function.update_self ..
  have hb := blockSize_pos k
  have hq : s.intermediatePage = q * blockSize k := by
    rw [← hr.page_div, Nat.div_mul_cancel hipa]
  have hq1 : (q + 1) * blockSize k = q * blockSize k + blockSize k := by ring
  refine ⟨hkept, ?_, ?_, ?_, fun x hx hx' => ?_⟩
  · simp only
    omega
  · simp only
    omega
  · simp only
    omega
  · have hxq : x / blockSize k = q := by omega
    have hx0 := Nat.div_add_mod x (blockSize k)
    have hmod := Nat.mod_lt x hb
    rw [hxq, Nat.mul_comm] at hx0
    have haddr : a + 8 * (x / blockSize k - q) = a := by omega
    have hin : s.InRange x := by
      rw [MapState.InRange]
      omega
    have hoffset : x - s.intermediatePage = x % blockSize k := by omega
    rw [haddr, hwalk _ x hself, MapState.remap, if_pos hin, hoffset]

/-- A page descriptor maps its page. -/
theorem Ready.page (hr : Ready P 0 a 1 q s)
    (h : s.writeLeaf a (Descriptor.page s.physicalAddress (permissionOf isReadable isWritable))
      pageSize = .ok s') : Mapped P isReadable isWritable 0 a 1 q s s' := by
  have hpa := hr.bound
  have hne := hr.nonempty
  have hsize := hr.alignedSize
  have hlt : s.physicalAddress < 2 ^ 48 := by
    rw [MapState.physicalPage] at hpa
    omega
  refine hr.writeLeaf (by rw [blockSize_zero]; omega) (Dvd.intro_left _ rfl)
    (fun memory _ => ⟨rfl, trivial⟩) (fun memory x hd => ?_) h
  have h11 := leaf_and_three (a := s.physicalAddress) isReadable isWritable (.inl rfl)
  obtain ⟨h10, -, -, -⟩ := leaf_or_spec hlt isReadable isWritable (.inl rfl)
    (rfl : Descriptor.page s.physicalAddress _ = _)
  rw [walk, hd, if_pos ⟨h11, h10⟩]
  exact congrArg some (leafTranslation_leaf (Dvd.intro_left _ rfl) hlt _ _ (.inl rfl) x)

theorem dvd_of_mask {y : ℕ} (h : y &&& (blockSize k - 1) = 0) : blockSize k ∣ y := by
  rw [blockSize, Nat.and_two_pow_sub_one_eq_mod] at h
  exact Nat.dvd_of_mod_eq_zero h

theorem page_of_dvd {y : ℕ} (h : blockSize k ∣ y) : y / 4096 * 4096 = y :=
  Nat.div_mul_cancel ((pageSize_dvd_blockSize k).trans h)

/-- A block descriptor is no table. -/
theorem words_of_block {y : ℕ} (hy : 4096 ∣ y) {memory : ℕ → BitVec 64}
    (h : memory a = Descriptor.block y (permissionOf isReadable isWritable)) :
    words memory k a = {a} ∧ WellFormed memory k a := by
  have h11 := leaf_and_three isReadable isWritable (.inr ⟨rfl, hy⟩)
  refine words_of_not_table ?_
  rw [h, show Descriptor.block y _ &&& 0b11#64 = 0b01#64 from h11]
  decide

/-- A block descriptor maps its block, where there are blocks. -/
theorem Ready.block (hr : Ready P (k + 1) a 1 q s) (hk : k + 1 ≤ 2)
    (hsize : blockSize (k + 1) ≤ s.remainingSize)
    (hpa : blockSize (k + 1) ∣ s.physicalAddress)
    (hipa : blockSize (k + 1) ∣ s.intermediatePhysicalAddress)
    (h : s.writeLeaf a (Descriptor.block s.physicalAddress (permissionOf isReadable isWritable))
      (blockSize (k + 1)) = .ok s') : Mapped P isReadable isWritable (k + 1) a 1 q s s' := by
  have hy := (pageSize_dvd_blockSize (k + 1)).trans hpa
  have hlt : s.physicalAddress < 2 ^ 48 := by
    have hbound := hr.bound
    have := hr.nonempty
    rw [MapState.physicalPage, page_of_dvd hpa] at hbound
    omega
  have h11 := leaf_and_three isReadable isWritable (.inr ⟨rfl, hy⟩)
  obtain ⟨h10, -, -, -⟩ := leaf_or_spec hlt isReadable isWritable (.inr rfl)
    (rfl : Descriptor.block s.physicalAddress _ = _)
  have hnot : Descriptor.block s.physicalAddress (permissionOf isReadable isWritable) &&&
      0b11#64 ≠ 0b11#64 := by
    rw [show Descriptor.block s.physicalAddress _ &&& 0b11#64 = 0b01#64 from h11]
    decide
  have hpage : s.intermediatePage = s.intermediatePhysicalAddress := page_of_dvd hipa
  refine hr.writeLeaf hsize (by rwa [hpage])
    (fun memory hd => words_of_block hy hd) (fun memory x hd => ?_) h
  rw [walk, hd, if_neg hnot, if_pos ⟨h11, hk, h10⟩]
  exact congrArg some (leafTranslation_leaf ((page_of_dvd hpa).symm ▸ hpa) hlt _ _ (.inr rfl) x)

/-! ## The table below a descriptor -/

theorem Rooted.below (hr : Rooted P (k + 1) a 1 s) (ht : s.memory a &&& 0b11#64 = 0b11#64) :
    Rooted P k (descriptorAddress (s.memory a)) 512 s := by
  obtain ⟨-, -, hwf⟩ := (wellFormed_of_table ht).mp (tableWellFormed_one.mp hr.wellFormed)
  have hapart := hr.apart
  rw [tableWords_one, words_of_table ht] at hapart
  exact ⟨hr.valid, hwf, hapart.mono_left Set.subset_union_right⟩

/-- The table can take the range. -/
theorem Ready.below (hr : Ready P (k + 1) a 1 q s) (ht : s.memory a &&& 0b11#64 = 0b11#64) :
    Fits P k (descriptorAddress (s.memory a)) 512 s :=
  ⟨hr.toRooted.below ht, hr.alignedSize, hr.nonempty, hr.bound⟩

/-- The descriptor of the table does not change. -/
theorem Kept.descriptor (hr : Rooted P (k + 1) a 1 s) (ht : s.memory a &&& 0b11#64 = 0b11#64)
    (h : Kept P k (descriptorAddress (s.memory a)) 512 s s') : s'.memory a = s.memory a := by
  obtain ⟨-, ha, -⟩ := (wellFormed_of_table ht).mp (tableWellFormed_one.mp hr.wellFormed)
  refine h.frame a ha (Set.disjoint_left.mp hr.apart ?_)
  rw [tableWords_one]
  exact mem_words_self _ _

/-- What happened in the table below a descriptor. -/
theorem Kept.above (hr : Rooted P (k + 1) a 1 s) (ht : s.memory a &&& 0b11#64 = 0b11#64)
    (h : Kept P k (descriptorAddress (s.memory a)) 512 s s') : Kept P (k + 1) a 1 s s' := by
  obtain ⟨hnext, ha, -⟩ := (wellFormed_of_table ht).mp (tableWellFormed_one.mp hr.wellFormed)
  have ha' := h.descriptor hr ht
  have ht' : s'.memory a &&& 0b11#64 = 0b11#64 := by rwa [ha']
  have hapart := hr.apart
  rw [tableWords_one, words_of_table ht] at hapart
  have hgrows := h.grows
  set t := descriptorAddress (s.memory a) with htdef
  refine ⟨h.valid, h.later, h.free, fun b hb hbf => h.frame b (fun hc => hb ?_) hbf, ?_, ?_⟩
  · rw [tableWords_one, words_of_table ht]
    exact .inr hc
  · rw [tableWords_one, tableWords_one, words_of_table ht, words_of_table ht', ha', ← htdef]
    rintro b (hb | hb)
    · exact .inl (.inl hb)
    · obtain hb | hb := hgrows hb
      · exact .inl (.inr hb)
      · exact .inr hb
  · rw [tableWellFormed_one, wellFormed_of_table ht', ha', ← htdef]
    refine ⟨hnext, fun hc => ?_, h.wellFormed⟩
    obtain hc | hc := hgrows hc
    · exact ha hc
    · exact Set.disjoint_left.mp hapart (.inl rfl) hc.1

theorem Mapped.above (hr : Ready P (k + 1) a 1 q s) (ht : s.memory a &&& 0b11#64 = 0b11#64)
    (h : Mapped P isReadable isWritable k (descriptorAddress (s.memory a)) 512 (512 * q) s s') :
    Mapped P isReadable isWritable (k + 1) a 1 q s s' := by
  have ha' := h.descriptor hr.toRooted ht
  have ht' : s'.memory a &&& 0b11#64 = 0b11#64 := by rwa [ha']
  refine ⟨h.toKept.above hr.toRooted ht, ?_, h.ipa, h.pa, fun x hx hx' => ?_⟩
  · rw [h.remaining, blockSize_succ, ← Nat.mul_assoc, Nat.mul_comm (q + 1)]
    rfl
  · have hxq : x / blockSize k / 512 = q := by
      rw [← div_blockSize_succ]
      omega
    have haddr : a + 8 * (x / blockSize (k + 1) - q) = a := by omega
    have hindex : x / blockSize k - 512 * q = x / blockSize k % 512 := by omega
    have := h.translates x (by omega) (by omega)
    rw [haddr, walk_of_table ht, walk_of_table ht', walkLevel_of_table ht, ha']
    rwa [hindex] at this

/-- A table that was just made. -/
theorem zeroTable_spec {memory memory' : ℕ → BitVec 64} {p n : ℕ}
    (hm : ∀ b ∈ Set.Ico p (p + 8 * n), memory' b = zeroTable memory p n b) :
    tableWords memory' k p n = {b | ∃ j < n, b = p + 8 * j} ∧ TableWellFormed memory' k p n ∧
      ∀ j < n, ∀ x, walk memory' k (p + 8 * j) x = none := by
  have hzero : ∀ j < n, memory' (p + 8 * j) = 0#64 := by
    intro j hj
    rw [hm _ ⟨by omega, by omega⟩, zeroTable, if_pos ⟨by omega, by omega⟩]
  have hwords : ∀ j < n, words memory' k (p + 8 * j) = {p + 8 * j} ∧
      WellFormed memory' k (p + 8 * j) := by
    intro j hj
    refine words_of_not_table ?_
    rw [hzero j hj]
    decide
  refine ⟨?_, ⟨fun j hj => (hwords j hj).2, fun i hi j hj hij => ?_⟩,
    fun j hj x => walk_zero (hzero j hj) x⟩
  · ext b
    refine exists_congr fun j => and_congr_right fun hj => ?_
    rw [(hwords j hj).1]
    rfl
  · rw [(hwords i hi).1, (hwords j hj).1, Set.disjoint_singleton]
    omega

/-- A descriptor was made to point to a new table. -/
structure NewTable (P : PageSource σ) (a : ℕ) (s s₁ : MapState σ) (p : ℕ) : Prop where
  physicalAddress : s₁.physicalAddress = s.physicalAddress
  intermediatePhysicalAddress : s₁.intermediatePhysicalAddress = s.intermediatePhysicalAddress
  remainingSize : s₁.remainingSize = s.remainingSize
  memory : s₁.memory = Function.update (zeroTable s.memory p 512) a (Descriptor.table p)
  valid : P.Valid s₁.pages
  later : P.Later s.pages s₁.pages
  aligned : 4096 ∣ p
  taken : Set.Ico p (p + 4096) ⊆ P.free s.pages
  free : P.free s₁.pages ⊆ P.free s.pages \ Set.Ico p (p + 4096)

section NewTable

variable {p : ℕ}

/-- The tree below a new table. -/
theorem NewTable.spec (h : NewTable P a s s₁ p) (hr : Rooted P (k + 1) a 1 s) :
    s₁.memory a = Descriptor.table p ∧ descriptorAddress (s₁.memory a) = p ∧
      words s₁.memory (k + 1) a = {a} ∪ {b | ∃ j < 512, b = p + 8 * j} ∧
      WellFormed s₁.memory (k + 1) a ∧ ∀ x, walk s₁.memory (k + 1) a x = none := by
  have ha : a ∉ Set.Ico p (p + 8 * 512) := fun hc => by
    refine Set.disjoint_left.mp hr.apart ?_ (h.taken hc)
    rw [tableWords_one]
    exact mem_words_self _ _
  have hlt : p < 2 ^ 48 := P.bound hr.valid p (h.taken ⟨le_rfl, by omega⟩)
  have hma : s₁.memory a = Descriptor.table p := by
    rw [h.memory, Function.update_self]
  have haddr : descriptorAddress (s₁.memory a) = p := by
    rw [hma, descriptorAddress_table h.aligned hlt]
  have ht : s₁.memory a &&& 0b11#64 = 0b11#64 := by
    rw [hma, table_and_three]
  have hzero : ∀ b ∈ Set.Ico p (p + 8 * 512), s₁.memory b = zeroTable s.memory p 512 b := by
    intro b hb
    have hba : b ≠ a := fun hc => ha (hc ▸ hb)
    rw [h.memory, Function.update_of_ne hba]
  obtain ⟨hw, hwf, hwalk⟩ := zeroTable_spec (k := k) hzero
  refine ⟨hma, haddr, ?_, ?_, fun x => ?_⟩
  · rw [words_of_table ht, haddr, hw]
  · rw [wellFormed_of_table ht, haddr, hw]
    refine ⟨?_, fun ⟨j, hj, hc⟩ => ha ⟨by omega, by omega⟩, hwf⟩
    rw [hma, getNextLevelTableAddress_table h.aligned hlt]
  · rw [walk_of_table ht, haddr]
    exact hwalk _ (Nat.mod_lt _ (by decide)) x

theorem NewTable.rooted (h : NewTable P a s s₁ p) (hr : Rooted P (k + 1) a 1 s) :
    Rooted P (k + 1) a 1 s₁ := by
  obtain ⟨-, -, hwords, hwf, -⟩ := h.spec hr
  refine ⟨h.valid, tableWellFormed_one.mpr hwf, ?_⟩
  rw [tableWords_one, hwords]
  refine Set.disjoint_left.mpr ?_
  rintro b (rfl | ⟨j, hj, rfl⟩) hb
  · refine Set.disjoint_left.mp hr.apart ?_ (h.free hb).1
    rw [tableWords_one]
    exact mem_words_self _ _
  · exact (h.free hb).2 ⟨by omega, by omega⟩

theorem NewTable.pages (h : NewTable P a s s₁ p) :
    s₁.physicalPage = s.physicalPage ∧ s₁.intermediatePage = s.intermediatePage := by
  rw [MapState.physicalPage, MapState.intermediatePage, h.physicalAddress,
    h.intermediatePhysicalAddress]
  exact ⟨rfl, rfl⟩

theorem NewTable.ready (h : NewTable P a s s₁ p) (hr : Ready P (k + 1) a 1 q s) :
    Ready P (k + 1) a 1 q s₁ := by
  have hbound := hr.bound
  refine ⟨⟨h.rooted hr.toRooted, h.remainingSize ▸ hr.alignedSize, h.remainingSize ▸ hr.nonempty, ?_⟩,
    h.intermediatePhysicalAddress ▸ hr.first⟩
  rwa [h.pages.1, h.remainingSize]

/-- What happens after a new table was made. -/
theorem NewTable.kept (h : NewTable P a s s₁ p) (hr : Rooted P (k + 1) a 1 s)
    (ht : s.memory a &&& 0b11#64 ≠ 0b11#64) (hm : Kept P (k + 1) a 1 s₁ s') :
    Kept P (k + 1) a 1 s s' := by
  obtain ⟨-, -, hwords, -, -⟩ := h.spec hr
  have hold : tableWords s.memory (k + 1) a 1 = {a} := by
    rw [tableWords_one, (words_of_not_table ht).1]
  have hnew : tableWords s₁.memory (k + 1) a 1 = {a} ∪ {b | ∃ j < 512, b = p + 8 * j} := by
    rw [tableWords_one, hwords]
  have hfree : P.free s₁.pages ⊆ P.free s.pages := h.free.trans Set.sdiff_subset
  have hpage : ∀ j < 512, p + 8 * j ∈ Set.Ico p (p + 4096) := fun j hj => ⟨by omega, by omega⟩
  refine ⟨hm.valid, P.later_trans h.later hm.later, hm.free.trans hfree, fun b hb hbf => ?_, ?_,
    hm.wellFormed⟩
  · rw [hold] at hb
    rw [hm.frame b ?_ fun hc => hbf (hfree hc), h.memory, Function.update_of_ne hb, zeroTable,
      if_neg fun hc => hbf (h.taken ⟨hc.1, by omega⟩)]
    rw [hnew]
    rintro (hc | ⟨j, hj, rfl⟩)
    · exact hb hc
    · exact hbf (h.taken (hpage j hj))
  · refine hm.grows.trans ?_
    rw [hold, hnew]
    rintro b ((hb | ⟨j, hj, rfl⟩) | hb)
    · exact .inl hb
    · exact .inr ⟨h.taken (hpage j hj), fun hc => (h.free (hm.free hc)).2 (hpage j hj)⟩
    · exact .inr ⟨hfree hb.1, hb.2⟩

/-- Mapping after a new table was made is mapping. If there was a block, the range has an address of it,
and the rest of it faults. -/
theorem NewTable.mapped (h : NewTable P a s s₁ p) (hr : Ready P (k + 1) a 1 q s)
    (ht : s.memory a &&& 0b11#64 ≠ 0b11#64)
    (hm : Mapped P isReadable isWritable (k + 1) a 1 q s₁ s') :
    Mapped P isReadable isWritable (k + 1) a 1 q s s' := by
  obtain ⟨-, -, -, -, hwalk⟩ := h.spec hr.toRooted
  have hrange : ∀ x, s₁.InRange x ↔ s.InRange x := by
    intro x
    rw [MapState.InRange, MapState.InRange, h.pages.2, h.remainingSize]
  refine ⟨h.kept hr.toRooted ht hm.toKept, ?_, ?_, ?_, fun x hx hx' => ?_⟩
  · rw [hm.remaining, h.remainingSize, h.pages.2]
  · rw [hm.ipa, h.remainingSize, h.intermediatePhysicalAddress]
  · rw [hm.pa, h.remainingSize, h.physicalAddress]
  · have haddr : a + 8 * (x / blockSize (k + 1) - q) = a := by omega
    have hlevel : walkLevel s.memory (k + 1) a x = k + 1 := by
      rw [walkLevel, if_neg ht]
    have hxq : x / blockSize (k + 1) = q := by omega
    have htouches : s.Touches (k + 1) x := by
      have hle := Nat.div_mul_le_self s.intermediatePage (blockSize (k + 1))
      have hlt := Nat.lt_div_mul_add (blockSize_pos (k + 1)) (a := s.intermediatePage)
      have hpos := hr.nonempty
      rw [hr.page_div] at hle hlt
      rw [MapState.Touches, hxq, Nat.add_mul, Nat.one_mul]
      omega
    rw [hm.translates x hx hx', haddr, hwalk, hlevel, MapState.remap, MapState.remap,
      if_pos htouches, ite_self, h.pages.1, h.pages.2]
    simp only [hrange]

end NewTable

/-- The table below the descriptor, new or not. -/
theorem nextLevelTable_spec {r : Except Unit ℕ} (hr : Rooted P (k + 1) a 1 s)
    (h : nextLevelTable P.allocatePages a s = .ok (r, s₁)) :
    (s.memory a &&& 0b11#64 = 0b11#64 ∧ r = .ok (descriptorAddress (s.memory a)) ∧ s₁ = s) ∨
      s.memory a &&& 0b11#64 ≠ 0b11#64 ∧ ∀ t, r = .ok t → NewTable P a s s₁ t := by
  have hiff : Descriptor.isTableDescriptor (s.memory a) = true ↔
      s.memory a &&& 0b11#64 = 0b11#64 := by
    simp [Descriptor.isTableDescriptor]
  rw [nextLevelTable] at h
  simp only [hiff] at h
  split_ifs at h with ht
  · cases h
    obtain ⟨hnext, -, -⟩ := (wellFormed_of_table ht).mp (tableWellFormed_one.mp hr.wellFormed)
    exact .inl ⟨ht, congrArg Except.ok hnext, rfl⟩
  · refine .inr ⟨ht, ?_⟩
    rintro t rfl
    simp only [Exec.bind_eq_ok] at h
    obtain ⟨⟨_ | p, pages⟩, hp, h⟩ := h
    · cases h
    · cases h
      obtain ⟨hvalid, hlater, hdvd, hsub, hfree⟩ := P.allocated (by decide) hr.valid hp
      exact ⟨rfl, rfl, rfl, rfl, hvalid, hlater, hdvd, hsub, hfree⟩

/-! ## Tables -/

/-- The index of a descriptor in its table. -/
theorem shiftRight_and_index (y k m : ℕ) :
    y >>> (12 + 9 * k) &&& (2 ^ m - 1) = y / blockSize k % 2 ^ m := by
  rw [Nat.and_two_pow_sub_one_eq_mod, Nat.shiftRight_eq_div_pow, blockSize]

/-- A table keeps the rest, wherever the range is. -/
theorem mapTable_kept {entry : ℕ → MapState σ → Exec (Except Unit Unit × MapState σ)} {e : ℕ}
    (hentry : ∀ {a : ℕ} {s s' : MapState σ}, Rooted P k a 1 s → entry a s = .ok (.ok (), s') →
      Kept P k a 1 s s')
    (hr : Rooted P k a (2 ^ e) s) (h : mapTable entry k a (2 ^ e) s = .ok (.ok (), s')) :
    Kept P k a (2 ^ e) s s' := by
  rw [mapTable] at h
  simp only [shiftRight_and_index] at h
  have hlt : s.intermediatePhysicalAddress / blockSize k % 2 ^ e < 2 ^ e :=
    Nat.mod_lt _ (Nat.two_pow_pos e)
  obtain ⟨n, hn⟩ := Nat.exists_eq_add_of_le hlt.le
  rw [hn] at hr ⊢
  rw [show 2 ^ e - s.intermediatePhysicalAddress / blockSize k % 2 ^ e = n by omega] at h
  exact hr.split.1.kept.append hr (mapEntries_kept hentry n _ s hr.split.2 h)

/-- A table maps what it covers of the range. -/
theorem Fits.mapTable {entry : ℕ → MapState σ → Exec (Except Unit Unit × MapState σ)} {e : ℕ}
    (hentry : ∀ {a q : ℕ} {s s' : MapState σ}, Ready P k a 1 q s →
      entry a s = .ok (.ok (), s') → Mapped P isReadable isWritable k a 1 q s s')
    (hf : Fits P k a (2 ^ e) s)
    (hfirst : s.intermediatePhysicalAddress / blockSize k / 2 ^ e = q)
    (h : mapTable entry k a (2 ^ e) s = .ok (.ok (), s')) :
    Mapped P isReadable isWritable k a (2 ^ e) (2 ^ e * q) s s' := by
  rw [MiniVisor.mapTable] at h
  simp only [shiftRight_and_index] at h
  have hlt : s.intermediatePhysicalAddress / blockSize k % 2 ^ e < 2 ^ e :=
    Nat.mod_lt _ (Nat.two_pow_pos e)
  have hdiv := Nat.div_add_mod (s.intermediatePhysicalAddress / blockSize k) (2 ^ e)
  rw [hfirst] at hdiv
  obtain ⟨n, hn⟩ := Nat.exists_eq_add_of_le hlt.le
  generalize hi : s.intermediatePhysicalAddress / blockSize k % 2 ^ e = i at h hn hdiv
  rw [show 2 ^ e - i = n by omega] at h
  have hbegin : (2 ^ e * q + i) * blockSize k ≤ s.intermediatePage := by
    rw [hdiv, ← page_div_blockSize]
    exact Nat.div_mul_le_self ..
  have hr := hf.toRooted
  rw [hn] at hr
  have hready : Ready P k (a + 8 * i) n (2 ^ e * q + i) s :=
    ⟨⟨hr.split.2, hf.alignedSize, hf.nonempty, hf.bound⟩, hdiv.symm⟩
  have hm := (hr.split.1.mapped (.inr hbegin)).append hr hf.alignedSize
    (mapEntries_spec hentry n _ _ s hready h)
  rwa [← hn] at hm

/-! ## The whole recursion -/

/-- One descriptor keeps the rest, whatever the range is. -/
theorem mapEntry_kept (k : ℕ) : ∀ {a : ℕ} {s s' : MapState σ}, Rooted P k a 1 s →
    mapEntry P.allocatePages (permissionOf isReadable isWritable) k a s = .ok (.ok (), s') →
      Kept P k a 1 s s' := by
  induction k with
  | zero =>
    intro a s s' hr h
    simp only [mapEntry, Exec.bind_eq_ok] at h
    obtain ⟨s₁, h₁, h⟩ := h
    obtain rfl : s₁ = s' := congrArg Prod.snd (Except.ok.inj h)
    exact hr.writeLeaf (fun memory _ => ⟨rfl, trivial⟩) h₁
  | succ k ih =>
    intro a s s' hr h
    rw [mapEntry] at h
    simp only at h
    split_ifs at h with hblock
    · obtain ⟨-, -, hpa, -⟩ := hblock
      simp only [Exec.bind_eq_ok] at h
      obtain ⟨s₁, h₁, h⟩ := h
      obtain rfl : s₁ = s' := congrArg Prod.snd (Except.ok.inj h)
      exact hr.writeLeaf
        (fun memory hd => words_of_block ((pageSize_dvd_blockSize _).trans (dvd_of_mask hpa)) hd) h₁
    · simp only [Exec.bind_eq_ok] at h
      obtain ⟨⟨_ | t, s₁⟩, h₁, h⟩ := h
      · cases h
      · obtain ⟨ht, ht', rfl⟩ | ⟨ht, hnew⟩ := nextLevelTable_spec hr h₁
        · cases ht'
          exact .above hr ht (mapTable_kept (e := 9) ih (hr.below ht) h)
        · have hnew := hnew t rfl
          obtain ⟨hma, haddr, -, -, -⟩ := hnew.spec hr
          have hr' := hnew.rooted hr
          have ht' : s₁.memory a &&& 0b11#64 = 0b11#64 := by
            rw [hma, table_and_three]
          rw [← haddr] at h
          exact hnew.kept hr ht (.above hr' ht' (mapTable_kept (e := 9) ih (hr'.below ht') h))

/-- One descriptor maps what it covers of the range. -/
theorem mapEntry_spec (k : ℕ) : ∀ {a q : ℕ} {s s' : MapState σ}, Ready P k a 1 q s →
    mapEntry P.allocatePages (permissionOf isReadable isWritable) k a s = .ok (.ok (), s') →
      Mapped P isReadable isWritable k a 1 q s s' := by
  induction k with
  | zero =>
    intro a q s s' hr h
    simp only [mapEntry, Exec.bind_eq_ok] at h
    obtain ⟨s₁, h₁, h⟩ := h
    obtain rfl : s₁ = s' := congrArg Prod.snd (Except.ok.inj h)
    exact hr.page h₁
  | succ k ih =>
    intro a q s s' hr h
    rw [mapEntry] at h
    simp only at h
    split_ifs at h with hblock
    · obtain ⟨hk, hsize, hpa, hipa⟩ := hblock
      simp only [Exec.bind_eq_ok] at h
      obtain ⟨s₁, h₁, h⟩ := h
      obtain rfl : s₁ = s' := congrArg Prod.snd (Except.ok.inj h)
      exact hr.block hk hsize (dvd_of_mask hpa) (dvd_of_mask hipa) h₁
    · simp only [Exec.bind_eq_ok] at h
      obtain ⟨⟨_ | t, s₁⟩, h₁, h⟩ := h
      · cases h
      · have hfirst := hr.first
        rw [div_blockSize_succ] at hfirst
        obtain ⟨ht, ht', rfl⟩ | ⟨ht, hnew⟩ := nextLevelTable_spec hr.toRooted h₁
        · cases ht'
          exact .above hr ht ((hr.below ht).mapTable (e := 9) ih hfirst h)
        · have hnew := hnew t rfl
          obtain ⟨hma, haddr, -, -, -⟩ := hnew.spec hr.toRooted
          have hr' := hnew.ready hr
          have ht' : s₁.memory a &&& 0b11#64 = 0b11#64 := by
            rw [hma, table_and_three]
          rw [← haddr] at h
          rw [← hnew.intermediatePhysicalAddress] at hfirst
          exact hnew.mapped hr ht (.above hr' ht' ((hr'.below ht').mapTable (e := 9) ih hfirst h))

/-- A table that is mapped with success starts with one of its descriptors. -/
theorem exists_of_mapTable {entry : ℕ → MapState σ → Exec (Except Unit Unit × MapState σ)} {e : ℕ}
    (h : mapTable entry k a (2 ^ e) s = .ok (.ok (), s')) :
    ∃ b s₁, entry b s = .ok (.ok (), s₁) := by
  rw [mapTable] at h
  simp only [shiftRight_and_index] at h
  have hlt : s.intermediatePhysicalAddress / blockSize k % 2 ^ e < 2 ^ e :=
    Nat.mod_lt _ (Nat.two_pow_pos e)
  obtain ⟨n, hn⟩ := Nat.exists_eq_succ_of_ne_zero (Nat.sub_ne_zero_of_lt hlt)
  rw [hn, Nat.succ_eq_add_one] at h
  simp only [mapEntries, Exec.bind_eq_ok] at h
  obtain ⟨⟨r, s₁⟩, h₁, h⟩ := h
  cases r with
  | error e => cases h
  | ok u => exact ⟨_, s₁, h₁⟩

theorem nextLevelTable_remaining {r : Except Unit ℕ}
    (h : nextLevelTable P.allocatePages a s = .ok (r, s₁)) : s₁.remainingSize = s.remainingSize := by
  rw [nextLevelTable] at h
  split_ifs at h with ht
  · cases h
    rfl
  · simp only [Exec.bind_eq_ok] at h
    obtain ⟨⟨_ | p, pages⟩, -, h⟩ := h
    · cases h
      rfl
    · cases h
      rfl

/-- Nothing is mapped with success if nothing remains. -/
theorem mapEntry_remaining (k : ℕ) : ∀ {a : ℕ} {s s' : MapState σ},
    mapEntry P.allocatePages (permissionOf isReadable isWritable) k a s = .ok (.ok (), s') →
      s.remainingSize ≠ 0 := by
  induction k with
  | zero =>
    intro a s s' h
    simp only [mapEntry, MapState.writeLeaf, Exec.bind_eq_ok] at h
    obtain ⟨_, ⟨_, -, _, -, _, hsub, -⟩, -⟩ := h
    have hle := (checkedSub_eq_ok.mp hsub).1
    have hpos : 0 < pageSize := Nat.two_pow_pos _
    omega
  | succ k ih =>
    intro a s s' h
    rw [mapEntry] at h
    simp only at h
    split_ifs at h with hblock
    · have hle := hblock.2.1
      have hpos := blockSize_pos (k + 1)
      omega
    · simp only [Exec.bind_eq_ok] at h
      obtain ⟨⟨_ | t, s₁⟩, h₁, h⟩ := h
      · cases h
      · obtain ⟨b, s₂, h₂⟩ := exists_of_mapTable (e := 9) h
        rw [← nextLevelTable_remaining h₁]
        exact ih h₂

end Map

end MiniVisor
