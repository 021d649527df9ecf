import MiniVisor.PagingRun

/-!
# Mapping over what is mapped

`TableRun` are the tables that any calls with success have built. A call with success puts the pages of its
range in the table (`mapAddressStage2_remaps`), which has two consequences.

The rest of the table stays as it was exactly if no block has addresses inside and outside of the
range (`replaces_iff`) : a table that is needed below a block is a new one, and what the block
translated is lost.

All addresses that were asked for are translated exactly if the range lies in the input addresses, goes to
addresses of 48 bits and begins at the same place of a page on both sides, and what is in the page behind
the written ones was there before (`complete_iff`) : for addresses that begin a page, exactly if the bounds
hold. The code checks none of this.
-/

namespace MiniVisor

open Machine

section Remap

variable {σ : Type} {P : PageSource σ}

namespace Mapping

variable (c : Mapping)

/-- The call returns with success. -/
def Returns (P : PageSource σ) (regs : Stage2Registers) (memory : ℕ → BitVec 64) (pages : σ)
    (memory' : ℕ → BitVec 64) (pages' : σ) : Prop :=
  mapAddressStage2 P.allocatePages regs c.physicalAddress c.intermediatePhysicalAddress c.mapSize
    c.isReadable c.isWritable memory pages = .ok (.ok (), memory', pages')

/-- The range lies in the input addresses, and what it is mapped to has 48 bits. -/
def InBounds (regs : Stage2Registers) : Prop :=
  c.intermediatePhysicalAddress + c.mapSize ≤ 2 ^ (64 - vtcrT0sz regs.vtcrEl2) ∧
    c.physicalAddress + c.mapSize ≤ 2 ^ 48

/-- Both addresses begin a page. -/
def Aligned : Prop :=
  4096 ∣ c.physicalAddress ∧ 4096 ∣ c.intermediatePhysicalAddress

/-- The pages that the call writes. -/
def written : Set ℕ :=
  Set.Ico (c.intermediatePhysicalAddress / 4096 * 4096)
    (c.intermediatePhysicalAddress / 4096 * 4096 + c.mapSize)

/-- The block or page that translates `x` has an address of the pages that the call writes. -/
def Touches (regs : Stage2Registers) (memory : ℕ → BitVec 64) (x : ℕ) : Prop :=
  ∃ y ∈ c.written, y / blockSize (translateLevel regs memory x) =
    x / blockSize (translateLevel regs memory x)

/-- A block translates addresses inside and outside of the range. -/
def Splits (regs : Stage2Registers) (memory : ℕ → BitVec 64) : Prop :=
  ∃ x ∉ c.range, translate regs memory x ≠ none ∧ c.Touches regs memory x

/-- All addresses of the range are translated as they were asked for. -/
def Complete (regs : Stage2Registers) (memory : ℕ → BitVec 64) : Prop :=
  ∀ x ∈ c.range, translate regs memory x = some (c.translation x)

/-- Moreover the other ones are translated as before. -/
def Replaces (regs : Stage2Registers) (memory memory' : ℕ → BitVec 64) : Prop :=
  c.Complete regs memory' ∧ ∀ x ∉ c.range, translate regs memory' x = translate regs memory x

/-- Both addresses are at the same place of a page, and what lies in the page behind the written ones is
translated already, not by a block that the call replaces. -/
def Continues (regs : Stage2Registers) (memory : ℕ → BitVec 64) : Prop :=
  c.physicalAddress % 4096 = c.intermediatePhysicalAddress % 4096 ∧
    ∀ x ∈ c.range, x ∉ c.written →
      translate regs memory x = some (c.translation x) ∧ ¬c.Touches regs memory x

variable {c}

theorem Aligned.written (h : c.Aligned) : c.written = c.range := by
  rw [Mapping.written, Nat.div_mul_cancel h.2, Mapping.range]

theorem Aligned.continues (h : c.Aligned) {regs : Stage2Registers} {memory : ℕ → BitVec 64} :
    c.Continues regs memory := by
  obtain ⟨hpa, hipa⟩ := h
  refine ⟨by rw [Nat.mod_eq_zero_of_dvd hpa, Nat.mod_eq_zero_of_dvd hipa], fun x hx hw => ?_⟩
  exact absurd (Aligned.written ⟨hpa, hipa⟩ ▸ hx) hw

end Mapping

/-- The table was made, and any number of calls with success followed. -/
inductive TableRun (P : PageSource σ) : Stage2Registers → (ℕ → BitVec 64) → σ → Prop
  | init {regs : Stage2Registers} {memory memory' : ℕ → BitVec 64} {pages pages' : σ}
      (v : BitVec 64) (hv : P.Valid pages)
      (h : initStage2TranslationTable P.allocatePages v memory pages =
        .ok (regs, memory', pages')) : TableRun P regs memory' pages'
  | map {regs : Stage2Registers} {memory memory' : ℕ → BitVec 64} {pages pages' : σ} (c : Mapping)
      (hrun : TableRun P regs memory pages) (h : c.Returns P regs memory pages memory' pages') :
      TableRun P regs memory' pages'

variable {regs : Stage2Registers} {memory memory' : ℕ → BitVec 64} {pages pages' : σ} {c : Mapping}

theorem TableRun.tableState (h : TableRun P regs memory pages) (hlow : regs.vttbrEl2.toNat < 2 ^ 47) :
    TableState P regs memory pages := by
  induction h with
  | init v hv h => exact (initStage2TranslationTable_spec hv h).1
  | map c _ h ih => exact (mapAddressStage2_kept ih hlow h).1

/-- What the hardware translates to keeps the place in the page and has 48 bits. -/
theorem translate_address {x : ℕ} {t : Translation} (h : translate regs memory x = some t) :
    x < 2 ^ (64 - vtcrT0sz regs.vtcrEl2) ∧ t.address % 4096 = x % 4096 ∧ t.address < 2 ^ 48 := by
  by_cases hx : x < 2 ^ (64 - vtcrT0sz regs.vtcrEl2)
  · rw [translate_of_lt hx] at h
    exact ⟨hx, walk_address h⟩
  · rw [translate, if_neg hx] at h
    cases h

theorem Mapping.Returns.mapSize (h : c.Returns P regs memory pages memory' pages')
    (hinit : Initialised regs) (hlow : regs.vttbrEl2.toNat < 2 ^ 47) :
    4096 ∣ c.mapSize ∧ 0 < c.mapSize := by
  obtain ⟨e, -, hsize, s', -, -, hmap⟩ := exists_of_mapAddressStage2 hinit hlow h
  obtain ⟨b, s₁, hfirst⟩ := exists_of_mapTable hmap
  exact ⟨hsize, Nat.pos_of_ne_zero (mapEntry_remaining _ hfirst)⟩

/-- What is complete is possible. -/
theorem Mapping.Complete.possible (h : c.Complete regs memory') (hsize : 0 < c.mapSize) :
    c.InBounds regs ∧ c.physicalAddress % 4096 = c.intermediatePhysicalAddress % 4096 := by
  have hfirst : c.intermediatePhysicalAddress ∈ c.range := ⟨le_rfl, by omega⟩
  have hlast : c.intermediatePhysicalAddress + (c.mapSize - 1) ∈ c.range := ⟨by omega, by omega⟩
  obtain ⟨-, hmod, -⟩ := translate_address (h _ hfirst)
  obtain ⟨hx, -, hlt⟩ := translate_address (h _ hlast)
  simp only [Mapping.translation] at hmod hlt
  rw [Nat.sub_self, Nat.add_zero] at hmod
  exact ⟨⟨by omega, by omega⟩, hmod⟩

/-- What a call does to the translations. -/
theorem Mapping.Returns.translate (ht : TableState P regs memory pages)
    (hlow : regs.vttbrEl2.toNat < 2 ^ 47) (hc : c.InBounds regs)
    (h : c.Returns P regs memory pages memory' pages') (x : ℕ) :
    (x ∈ c.written → translate regs memory' x = some ⟨c.physicalAddress / 4096 * 4096 +
      (x - c.intermediatePhysicalAddress / 4096 * 4096), c.isReadable, c.isWritable⟩) ∧
    (x ∉ c.written → c.Touches regs memory x → translate regs memory' x = none) ∧
    (x ∉ c.written → ¬c.Touches regs memory x →
      translate regs memory' x = translate regs memory x) := by
  obtain ⟨hspace, hbound⟩ := hc
  have hremaps := mapAddressStage2_remaps ht hlow (by omega) (by omega) h x
  have htouches := MapState.touches_iff (j := translateLevel regs memory x) (x := x)
    (s := ⟨c.physicalAddress, c.intermediatePhysicalAddress, c.mapSize, memory, pages⟩)
  rw [hremaps, MapState.remap]
  refine ⟨fun hx => if_pos hx, fun hx hy => ?_, fun hx hy => ?_⟩
  · exact (if_neg hx).trans (if_pos (htouches.mpr hy))
  · exact (if_neg hx).trans (if_neg fun hc => hy (htouches.mp hc))

theorem Mapping.Returns.complete (hrun : TableRun P regs memory pages)
    (hlow : regs.vttbrEl2.toNat < 2 ^ 47) (h : c.Returns P regs memory pages memory' pages') :
    c.Complete regs memory' ↔ c.InBounds regs ∧ c.Continues regs memory := by
  have ht := hrun.tableState hlow
  obtain ⟨-, hsize⟩ := h.mapSize ht.initialised hlow
  have hkeep : ∀ x ∈ c.range, x ∈ c.written →
      c.physicalAddress % 4096 = c.intermediatePhysicalAddress % 4096 →
      c.physicalAddress / 4096 * 4096 + (x - c.intermediatePhysicalAddress / 4096 * 4096) =
        c.physicalAddress + (x - c.intermediatePhysicalAddress) := by
    rintro x ⟨hx, -⟩ - hmod
    omega
  constructor
  · intro hcomplete
    obtain ⟨hbounds, hmod⟩ := hcomplete.possible hsize
    refine ⟨hbounds, hmod, fun x hx hw => ?_⟩
    obtain ⟨-, hnone, hsame⟩ := h.translate ht hlow hbounds x
    have htouches : ¬c.Touches regs memory x := by
      intro hc
      have := (hnone hw hc).symm.trans (hcomplete x hx)
      cases this
    exact ⟨(hsame hw htouches).symm.trans (hcomplete x hx), htouches⟩
  · rintro ⟨hbounds, hmod, htail⟩ x hx
    obtain ⟨hwritten, -, hsame⟩ := h.translate ht hlow hbounds x
    by_cases hw : x ∈ c.written
    · rw [hwritten hw, hkeep x hx hw hmod]
      rfl
    · obtain ⟨hold, htouches⟩ := htail x hx hw
      rw [hsame hw htouches, hold]

/-- The call translates its whole range exactly if it is possible and what it does not write was
there. With addresses that begin a page nothing has to be there. -/
theorem complete_iff (hrun : TableRun P regs memory pages) (hlow : regs.vttbrEl2.toNat < 2 ^ 47)
    (h : c.Returns P regs memory pages memory' pages') :
    (c.Complete regs memory' ↔ c.InBounds regs ∧ c.Continues regs memory) ∧
      (c.Complete regs memory' ∧ c.Aligned ↔ c.InBounds regs ∧ c.Aligned) := by
  have hcomplete := h.complete hrun hlow
  refine ⟨hcomplete, fun hc => ⟨(hcomplete.mp hc.1).1, hc.2⟩, fun hc => ⟨?_, hc.2⟩⟩
  exact hcomplete.mpr ⟨hc.1, hc.2.continues⟩

/-- The call changes what its range translates to and nothing else, if it is possible and does not split a
block. -/
theorem replaces_iff (hrun : TableRun P regs memory pages) (hlow : regs.vttbrEl2.toNat < 2 ^ 47)
    (haligned : c.Aligned) (h : c.Returns P regs memory pages memory' pages') :
    c.Replaces regs memory memory' ↔ c.InBounds regs ∧ ¬c.Splits regs memory := by
  have ht := hrun.tableState hlow
  obtain ⟨-, hsize⟩ := h.mapSize ht.initialised hlow
  have hwritten := haligned.written
  constructor
  · rintro ⟨hcomplete, hframe⟩
    obtain ⟨hbounds, -⟩ := hcomplete.possible hsize
    refine ⟨hbounds, ?_⟩
    rintro ⟨x, hx, hsome, htouches⟩
    obtain ⟨-, hnone, -⟩ := h.translate ht hlow hbounds x
    exact hsome ((hframe x hx).symm.trans (hnone (hwritten ▸ hx) htouches))
  · rintro ⟨hbounds, hsplits⟩
    refine ⟨fun x hx => ?_, fun x hx => ?_⟩
    · obtain ⟨hx', -, -⟩ := h.translate ht hlow hbounds x
      rw [hx' (hwritten ▸ hx), Nat.div_mul_cancel haligned.1, Nat.div_mul_cancel haligned.2]
      rfl
    · obtain ⟨-, hnone, hsame⟩ := h.translate ht hlow hbounds x
      have hw : x ∉ c.written := hwritten ▸ hx
      by_cases htouches : c.Touches regs memory x
      · have hold : MiniVisor.translate regs memory x = none := by
          by_contra hsome
          exact hsplits ⟨x, hx, hsome, htouches⟩
        rw [hnone hw htouches, hold]
      · exact hsame hw htouches

end Remap

/-! ## Runs -/

/-- A table with two mappings, with tables from `0x1000` on : the memory after each call. -/
def mapTwice (first second : Mapping) :
    Exec (Stage2Registers × (Except Unit Unit × (ℕ → BitVec 64) × ℕ) ×
      (Except Unit Unit × (ℕ → BitVec 64) × ℕ)) := do
  let (regs, memory, g) ←
    initStage2TranslationTable nextPages.allocatePages 0#64 (fun _ => 0#64) 0x1000
  let (r, memory, g) ← mapAddressStage2 nextPages.allocatePages regs first.physicalAddress
    first.intermediatePhysicalAddress first.mapSize first.isReadable first.isWritable memory g
  let r' ← mapAddressStage2 nextPages.allocatePages regs second.physicalAddress
    second.intermediatePhysicalAddress second.mapSize second.isReadable second.isWritable memory g
  pure (regs, (r, memory, g), r')

/-- What can be computed of the outcome : the size of the input addresses, the base of the table, and what
`x` translates to before and after the second call. -/
def mapTwiceOutcome (first second : Mapping) (x : ℕ) :
    Option (ℕ × ℕ × Option Translation × Option Translation) :=
  match mapTwice first second with
  | .ok (regs, (.ok (), memory, _), (.ok (), memory', _)) =>
    some (vtcrT0sz regs.vtcrEl2, regs.vttbrEl2.toNat, translate regs memory x,
      translate regs memory' x)
  | _ => none

theorem exists_of_mapTwiceOutcome {first second : Mapping} {x t0sz base : ℕ}
    {t t' : Option Translation} (h : mapTwiceOutcome first second x = some (t0sz, base, t, t')) :
    ∃ regs memory₀ g₀ memory g memory' g',
      initStage2TranslationTable nextPages.allocatePages 0#64 (fun _ => 0#64) 0x1000 =
        .ok (regs, memory₀, g₀) ∧
      first.Returns nextPages regs memory₀ g₀ memory g ∧
      second.Returns nextPages regs memory g memory' g' ∧
      vtcrT0sz regs.vtcrEl2 = t0sz ∧ regs.vttbrEl2.toNat = base ∧
      translate regs memory x = t ∧ translate regs memory' x = t' := by
  unfold mapTwiceOutcome at h
  split at h
  · next regs memory g memory' g' hrun =>
    simp only [Option.some.injEq, Prod.mk.injEq] at h
    obtain ⟨ht0sz, hbase, ht, ht'⟩ := h
    simp only [mapTwice, Exec.bind_eq_ok] at hrun
    obtain ⟨⟨regs₁, memory₀, g₀⟩, h₀, ⟨r, memory₁, g₁⟩, h₁, r', h₂, hrun⟩ := hrun
    obtain ⟨rfl, ⟨rfl, rfl, rfl⟩, rfl⟩ : regs₁ = regs ∧ (r = .ok () ∧ memory₁ = memory ∧ g₁ = g) ∧
        r' = (.ok (), memory', g') := by
      simpa using hrun
    exact ⟨_, _, _, _, _, _, _, h₀, h₁, h₂, ht0sz, hbase, ht, ht'⟩
  · cases h

/-- Two MiB in one block. -/
def exampleBlock : Mapping := ⟨0x80000000, 0x40000000, 0x200000, true, true⟩

/-- The first page of it goes elsewhere. -/
def exampleRemap : Mapping := ⟨0x90000000, 0x40000000, 0x1000, true, false⟩

/-- A page behind the input addresses. -/
def exampleBeyond : Mapping := ⟨0x80000000, 0x100000000, 0x1000, true, true⟩

theorem mapTwiceOutcome_page : mapTwiceOutcome examplePage exampleRemap 0x40000000 =
    some (32, 0x1000, some ⟨0x80000000, true, true⟩, some ⟨0x90000000, true, false⟩) := by
  decide +kernel

theorem mapTwiceOutcome_block : mapTwiceOutcome exampleBlock exampleRemap 0x40001000 =
    some (32, 0x1000, some ⟨0x80001000, true, true⟩, none) := by
  decide +kernel

theorem mapTwiceOutcome_beyond : mapTwiceOutcome examplePage exampleBeyond 0x100000000 =
    some (32, 0x1000, none, none) := by
  decide +kernel

/-- The page that `examplePage` maps goes elsewhere, and nothing else changes. -/
theorem replaces_iff_page : ∃ regs memory pages memory' pages',
    TableRun nextPages regs memory pages ∧
      translate regs memory 0x40000000 = some ⟨0x80000000, true, true⟩ ∧
      exampleRemap.Returns nextPages regs memory pages memory' pages' ∧
      exampleRemap.Replaces regs memory memory' := by
  obtain ⟨regs, memory₀, g₀, memory, g, memory', g', h₀, h₁, h₂, ht0sz, hbase, hold, -⟩ :=
    exists_of_mapTwiceOutcome mapTwiceOutcome_page
  have hlow : regs.vttbrEl2.toNat < 2 ^ 47 := by
    rw [hbase]
    decide
  obtain ⟨ht, -, hnone, -⟩ := initStage2TranslationTable_spec trivial h₀
  have hrun := TableRun.map examplePage (.init 0#64 trivial h₀) h₁
  have hbounds : ∀ c ∈ [examplePage, exampleRemap], c.InBounds regs := by
    simp only [Mapping.InBounds, ht0sz]
    decide
  have hfaults : ∀ x ∉ exampleRemap.range, translate regs memory x = none := by
    intro x hx
    obtain ⟨-, htouched, hsame⟩ := h₁.translate ht hlow (hbounds _ (by simp)) x
    by_cases hc : examplePage.Touches regs memory₀ x
    · exact htouched hx hc
    · exact (hsame hx hc).trans (hnone x)
  refine ⟨regs, memory, g, memory', g', hrun, hold, h₂, ?_⟩
  refine (replaces_iff hrun hlow ⟨by decide, by decide⟩ h₂).mpr ⟨hbounds _ (by simp), ?_⟩
  rintro ⟨x, hx, hsome, -⟩
  exact hsome (hfaults x hx)

/-- A page inside of a block goes elsewhere, and the rest of the block is lost. -/
theorem remap_loses_block : ∃ regs memory pages memory' pages',
    TableRun nextPages regs memory pages ∧ regs.vttbrEl2.toNat < 2 ^ 47 ∧
      exampleRemap.Returns nextPages regs memory pages memory' pages' ∧
      0x40001000 ∉ exampleRemap.range ∧
      translate regs memory 0x40001000 = some ⟨0x80001000, true, true⟩ ∧
      translate regs memory' 0x40001000 = none ∧ ¬exampleRemap.Replaces regs memory memory' := by
  obtain ⟨regs, memory₀, g₀, memory, g, memory', g', h₀, h₁, h₂, -, hbase, hold, hnew⟩ :=
    exists_of_mapTwiceOutcome mapTwiceOutcome_block
  have hout : 0x40001000 ∉ exampleRemap.range := fun hc => absurd hc.2 (by decide)
  refine ⟨regs, memory, g, memory', g', .map exampleBlock (.init 0#64 trivial h₀) h₁,
    by rw [hbase]; decide, h₂, hout, hold, hnew, ?_⟩
  rintro ⟨-, hframe⟩
  have := hframe 0x40001000 hout
  rw [hold, hnew] at this
  cases this

/-- All of `examplePage` is translated. -/
theorem complete_iff_page : ∃ regs memory pages memory' pages',
    TableRun nextPages regs memory pages ∧
      examplePage.Returns nextPages regs memory pages memory' pages' ∧
      examplePage.Complete regs memory' := by
  obtain ⟨regs, memory₀, g₀, memory, g, memory', g', h₀, h₁, -, ht0sz, hbase, -, -⟩ :=
    exists_of_mapTwiceOutcome mapTwiceOutcome_page
  have hlow : regs.vttbrEl2.toNat < 2 ^ 47 := by
    rw [hbase]
    decide
  have hbounds : examplePage.InBounds regs := by
    rw [Mapping.InBounds, ht0sz]
    decide
  have hrun : TableRun nextPages regs memory₀ g₀ := .init 0#64 trivial h₀
  refine ⟨regs, memory₀, g₀, memory, g, hrun, h₁, ?_⟩
  exact ((complete_iff hrun hlow h₁).2.mpr ⟨hbounds, by decide, by decide⟩).1

/-- A page behind the input addresses is mapped with success, and faults. -/
theorem map_beyond_faults : ∃ regs memory pages memory' pages',
    TableRun nextPages regs memory pages ∧ regs.vttbrEl2.toNat < 2 ^ 47 ∧
      2 ^ (64 - vtcrT0sz regs.vtcrEl2) ≤ exampleBeyond.intermediatePhysicalAddress ∧
      exampleBeyond.Returns nextPages regs memory pages memory' pages' ∧
      translate regs memory' exampleBeyond.intermediatePhysicalAddress = none ∧
      ¬exampleBeyond.Complete regs memory' := by
  obtain ⟨regs, memory₀, g₀, memory, g, memory', g', h₀, h₁, h₂, ht0sz, hbase, -, hnew⟩ :=
    exists_of_mapTwiceOutcome mapTwiceOutcome_beyond
  refine ⟨regs, memory, g, memory', g', .map examplePage (.init 0#64 trivial h₀) h₁,
    by rw [hbase]; decide, by rw [ht0sz]; decide, h₂, hnew, ?_⟩
  intro hcomplete
  have := hcomplete 0x100000000 ⟨by decide, by decide⟩
  rw [hnew] at this
  cases this

end MiniVisor
