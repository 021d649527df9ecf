import MiniVisor.AllocatorCalls

/-!
# The global allocator

`GlobalAllocator` gives Rust's heap its memory : `alloc` passes the size and the alignment of a
`Layout` on to `allocate`, and an error becomes the null pointer. `allocate` expects the order of
an alignment and not its bytes, so a layout with alignment 8 gets an address that is a multiple of
256, and one with alignment 64 stops at a shift by 64.

A pointer it returns is always aligned and its block was free. What goes wrong is that `alloc`
fails too often : `alloc_honours_iff` says when it does not.
-/

namespace MiniVisor

open Machine

/-- `core::alloc::Layout`. -/
structure Layout where
  size : ℕ
  align : ℕ
  pow : ∃ k, align = 2 ^ k

namespace GlobalAllocator

/-- `alloc`. -/
def alloc (m : MemoryAllocator) (layout : Layout) : Exec (ℕ × MemoryAllocator) := do
  match ← m.allocate layout.size layout.align with
  | (.ok address, m) => pure (address, m)
  | (.error _, m) => pure (0, m)

/-- Entry `i` contains a block for the layout. -/
def HasBlock (m : MemoryAllocator) (layout : Layout) (i : ℕ) : Prop :=
  ∃ a, layout.align ∣ a ∧ m.pool.startAddress i ≤ a ∧ a + layout.size ≤ m.pool.endAddress i + 1

/-- The layout is an exact fit of all the memory there is, which is entry `i`. -/
def TakesAll (m : MemoryAllocator) (layout : Layout) (i : ℕ) : Prop :=
  (∀ j < poolSize, m.pool.enabled j = true → j = i) ∧ m.pool.size i = layout.size

/-- `alloc` may fail. -/
def MayFail (m : MemoryAllocator) (layout : Layout) : Prop :=
  m.Full ∨ ∀ i < poolSize, m.pool.enabled i = true → HasBlock m layout i → TakesAll m layout i

/-- `alloc` returns, a pointer that is not null is right, and null has a reason. -/
def Honours (m : MemoryAllocator) (layout : Layout) : Prop :=
  ∃ p m', alloc m layout = .ok (p, m') ∧
    (p ≠ 0 → layout.align ∣ p ∧ Set.Ico p (p + layout.size) ⊆ m.freeBytes) ∧
      (p = 0 → MayFail m layout)

/-- The entry at which the scan ends serves the layout, with `align()` as an order : no entry has
room at a multiple of `2 ^ align()` and there is a reason to fail, or the scan ends at an entry
that has, away from address 0, and the block leaves no single byte of it. -/
def Serves (m : MemoryAllocator) (layout : Layout) : Prop :=
  m.freeSize ≤ layout.size ∨
    match m.found layout.size layout.align with
    | none => MayFail m layout
    | some (.error _) => False
    | some (.ok (i, a)) =>
      m.Carves i a layout.size ∧ (a ≠ 0 ∨ m.Full ∨ TakesAll m layout i)

end GlobalAllocator

open GlobalAllocator

section

variable {m m' : MemoryAllocator} {L A C : List ℕ} {B : ℕ → List ℕ} {x start size : ℕ}
  {layout : Layout}

/-- The last byte of the address space does not become free. -/
theorem MemoryAllocator.Changed.lt {α : Type} {r : MemoryResult α} {F : α → Set ℕ} (h : m.Changed r m' F)
    (hm : ∀ b ∈ m.freeBytes, b + 1 < 2 ^ 64) (hF : ∀ a, r = .ok a → ∀ b ∈ F a, b + 1 < 2 ^ 64) :
    ∀ b ∈ m'.freeBytes, b + 1 < 2 ^ 64 := by
  cases r with
  | error e =>
    have hsame : m' = m := h
    exact hsame ▸ hm
  | ok a =>
    rw [h.2]
    exact hF a rfl

theorem lt_of_mem_freed {r : MemoryResult Unit} (hm : ∀ b ∈ m.freeBytes, b + 1 < 2 ^ 64)
    (he : m.free start size = .ok (r, m')) (a : Unit) (hr : r = .ok a) :
    ∀ b ∈ m.freeBytes ∪ Set.Ico start (start + size), b + 1 < 2 ^ 64 := by
  subst hr
  have htop := lt_of_free he
  rintro b (hb | hb)
  · exact hm b hb
  · have := (Set.mem_Ico.mp hb).2
    omega

/-- No run frees the last byte of the address space. -/
theorem CallRun.lt (h : CallRun m) : ∀ b ∈ m.freeBytes, b + 1 < 2 ^ 64 := by
  induction h with
  | new =>
    rw [Inv.new.freeBytes_eq]
    simp
  | free start size h hfree he ih => exact (h.valid.freed hfree he).lt ih (lt_of_mem_freed ih he)
  | reserveMemory start size o h hin he ih =>
    exact (h.valid.reserveAligned hin he).lt ih fun a _ b hb => ih b hb.1
  | allocate size o h he ih => exact (h.valid.allocate he).1.lt ih fun a _ b hb => ih b hb.1

/-- `define_used_memory` fails on a range inside an entry if the pool is full, or if the range is
the only entry. -/
theorem Inv.useRange_error_cases {e : MemoryError} (h : Inv m (A ++ x :: C) B)
    (he : start + size ≤ m.pool.endAddress x + 1) (hz : size ≠ 0)
    (hr : m.useRange x start size = .ok (.error e, m')) :
    m.Full ∨ (A = [] ∧ C = [] ∧ m.pool.startAddress x = start ∧
      start + size = m.pool.endAddress x + 1) := by
  rcases useRange_error hr with ⟨-, hfull | ⟨hprev, hnext, hs, hstop⟩⟩ | ⟨-, hend, hone⟩
  · exact .inl hfull
  · rw [h.shape.chain.previous] at hprev
    rw [h.shape.chain.getNextEntry] at hnext
    exact .inr ⟨List.getLast?_eq_none_iff.mp hprev, List.head?_eq_none_iff.mp hnext, hs, by omega⟩
  · omega

theorem Inv.takesAll_of_singleton (h : Inv m [x] B) (hsize : m.pool.size x = layout.size) :
    TakesAll m layout x :=
  ⟨fun j hj hen => List.mem_singleton.mp ((h.shape.chain.mem_iff j).mpr ⟨hj, hen⟩), hsize⟩

/-- An entry with a block for a layout that asks for all the bytes there are. -/
theorem Inv.takesAll_of_le (h : Inv m L B) (hle : m.freeSize ≤ layout.size) (hx : x ∈ L)
    (hb : HasBlock m layout x) : TakesAll m layout x := by
  obtain ⟨A, C, rfl⟩ := List.append_of_mem hx
  obtain ⟨a, -, hs, he⟩ := hb
  have hcount := h.counted
  simp only [List.map_append, List.map_cons, total_append, total_cons, MemoryEntryPool.range]
    at hcount
  have hempty : ∀ {D : List ℕ}, total (D.map m.pool.range) = 0 → D = [] := by
    intro D hD
    cases D with
    | nil => rfl
    | cons d D => simp at hD
  have hsize : m.pool.size x = m.pool.endAddress x - m.pool.startAddress x + 1 := rfl
  obtain rfl := hempty (D := A) (by omega)
  obtain rfl := hempty (D := C) (by omega)
  exact h.takesAll_of_singleton (by omega)

/-- A multiple of `2 ^ align()` is a multiple of `align()`. -/
theorem Layout.align_dvd (layout : Layout) : layout.align ∣ 2 ^ layout.align := by
  obtain ⟨k, hk⟩ := layout.pow
  rw [hk]
  exact Nat.pow_dvd_pow 2 Nat.lt_two_pow_self.le

/-- Where the scan of `allocate` ends with room. -/
theorem Inv.found_eq_ok {o i a : ℕ} (h : Inv m L B) (hf : m.found size o = some (.ok (i, a))) :
    i ∈ L ∧ MemoryAllocator.room m.pool size o i = some a := by
  obtain ⟨j, hj, hvisit⟩ := List.exists_of_findSome?_eq_some hf
  unfold MemoryAllocator.visit at hvisit
  split_ifs at hvisit with hover
  · cases hvisit
  · obtain ⟨q, hplace, hq⟩ := Option.map_eq_some_iff.mp hvisit
    obtain ⟨b, hroom, rfl⟩ := Option.map_eq_some_iff.mp hplace
    cases hq
    exact ⟨h.mem_of_scanned hj, hroom⟩

theorem alloc_of_le (hz : 1 ≤ layout.size) (hf : m.freeSize ≤ layout.size) :
    alloc m layout = .ok (0, m) := by
  rw [alloc, MemoryAllocator.allocate, if_neg (by omega), if_pos hf]
  rfl

/-- `alloc` where the scan ends with room for a block. -/
theorem alloc_of_found {i a : ℕ} (h : Inv m L B)
    (hlt : ∀ i ∈ L, m.pool.endAddress i + 1 < 2 ^ 64) (hz : 1 ≤ layout.size)
    (hf : layout.size < m.freeSize)
    (hfound : m.found layout.size layout.align = some (.ok (i, a))) :
    alloc m layout = (m.useRange i a layout.size >>= fun q => match q with
      | (.ok (), m) => .ok (a, m)
      | (.error _, m) => .ok (0, m)) := by
  rw [alloc, h.allocate_eq_found hlt (by omega) hf, hfound]
  dsimp only
  rw [Exec.ok_bind]
  dsimp only [MemoryAllocator.take]
  cases m.useRange i a layout.size with
  | error t => rfl
  | ok q =>
    obtain ⟨r, m'⟩ := q
    cases r with
    | error e => rfl
    | ok u => rfl

/-- `alloc` honours a layout exactly if the memory serves it with `align()` as an order. -/
theorem alloc_honours_iff (h : CallRun m) (layout : Layout) (hz : 1 ≤ layout.size) :
    Honours m layout ↔ Serves m layout := by
  obtain ⟨⟨L, B, hinv⟩, -⟩ := id h.valid
  have hlt : ∀ i ∈ L, m.pool.endAddress i + 1 < 2 ^ 64 := fun i hi =>
    h.lt _ (hinv.endAddress_mem hi)
  have hmem : ∀ {i}, i < poolSize → m.pool.enabled i = true → i ∈ L := fun hi hen =>
    (hinv.shape.chain.mem_iff _).mpr ⟨hi, hen⟩
  by_cases hf : m.freeSize ≤ layout.size
  · refine iff_of_true ⟨0, m, alloc_of_le hz hf, fun hc => absurd rfl hc, fun _ => ?_⟩ (.inl hf)
    exact .inr fun i hi hen hb => hinv.takesAll_of_le hf (hmem hi hen) hb
  rw [Serves, or_iff_right hf]
  cases hfound : m.found layout.size layout.align with
  | none =>
    have heq : alloc m layout = .ok (0, m) := by
      rw [alloc, hinv.allocate_eq_found hlt (by omega) (not_le.mp hf), hfound]
      rfl
    rw [Honours, heq]
    constructor
    · rintro ⟨p, m', he, -, hnull⟩
      cases he
      exact hnull rfl
    · exact fun hc => ⟨0, m, rfl, fun hp => absurd rfl hp, fun _ => hc⟩
  | some x =>
    cases x with
    | error t =>
      have heq : alloc m layout = .error t := by
        rw [alloc, hinv.allocate_eq_found hlt (by omega) (not_le.mp hf), hfound]
        rfl
      refine iff_of_false ?_ id
      rintro ⟨p, m', he, -⟩
      rw [heq] at he
      cases he
    | ok found =>
      obtain ⟨i, a⟩ := found
      have heq := alloc_of_found hinv hlt hz (not_le.mp hf) hfound
      obtain ⟨hi, hroom⟩ := hinv.found_eq_ok hfound
      obtain ⟨rfl, hfit⟩ := room_eq_some hroom
      have hi' := (hinv.shape.chain.mem_iff i).mp hi
      have hblock : HasBlock m layout i := ⟨_, layout.align_dvd.trans (dvd_roundUp _ _),
        le_roundUp _ _, hfit⟩
      obtain ⟨A, C, rfl⟩ := List.append_of_mem hi
      dsimp only
      constructor
      · rintro ⟨p, m', he, -, hnull⟩
        rw [heq] at he
        obtain ⟨⟨r, m₁⟩, huse, he⟩ := Exec.bind_eq_ok.mp he
        refine ⟨?_, ?_⟩
        · by_contra hc
          rw [hinv.useRange_assertion hlt (le_roundUp _ _) hfit (by omega) hc] at huse
          cases huse
        · by_contra hno
          obtain ⟨h0, hno⟩ := not_or.mp hno
          obtain ⟨hfull, htakes⟩ := not_or.mp hno
          rw [not_not] at h0
          have hp : p = 0 := by
            cases r with
            | error e => exact (Prod.ext_iff.mp (Except.ok.inj he)).1.symm
            | ok u => exact (Prod.ext_iff.mp (Except.ok.inj he)).1.symm.trans h0
          exact htakes ((hnull hp).resolve_left hfull i hi'.1 hi'.2 hblock)
      · rintro ⟨hcarves, hserve⟩
        obtain ⟨⟨r, m'⟩, huse⟩ := hinv.useRange_returns hlt (le_roundUp _ _) hfit (by omega)
          (by omega) hcarves
        rw [Honours, heq, huse, Exec.ok_bind]
        cases r with
        | error e =>
          refine ⟨0, m', rfl, fun hp => absurd rfl hp, fun _ => ?_⟩
          rcases hinv.useRange_error_cases hfit (by omega) huse with
            hfull | ⟨rfl, rfl, hs, hend⟩
          · exact .inl hfull
          · refine .inr fun j hj hen _ => ?_
            have hsize : m.pool.size i = layout.size := by
              simp only [MemoryEntryPool.size]
              omega
            obtain rfl := List.mem_singleton.mp (hmem hj hen)
            exact hinv.takesAll_of_singleton hsize
        | ok u =>
          refine ⟨_, m', rfl, fun _ => ⟨layout.align_dvd.trans (dvd_roundUp _ _), ?_⟩, fun hp => ?_⟩
          · intro b hb
            have := Set.mem_Ico.mp hb
            have := le_roundUp (m.pool.startAddress i) layout.align
            rw [hinv.freeBytes_eq]
            exact ⟨m.pool.range i, by simp, by simp only [MemoryEntryPool.range]; omega⟩
          · rcases hserve with h0 | hfull | htakes
            · exact absurd hp h0
            · exact .inl hfull
            · refine .inr fun j hj hen _ => ?_
              obtain rfl := htakes.1 j hj hen
              exact htakes

/-- A page is freed, and a layout of 16 bytes gets its first bytes. -/
theorem alloc_honours_iff_word : ∃ m, CallRun m ∧ Honours m ⟨16, 8, 3, rfl⟩ := by
  have h := CallRun.free (m := .new) 0x1000 0x1000 .new
    (by simp [Inv.new.freeBytes_eq, covered]) rfl
  refine ⟨_, h, (alloc_honours_iff h ⟨16, 8, 3, rfl⟩ (by decide)).mpr (.inr ?_)⟩
  exact ⟨.inl (by decide), .inl (by decide)⟩

/-- 128 bytes from 0x1008 on are free, and a layout of 8 bytes at a multiple of 8 gets null : there
is no multiple of 256 among them. -/
theorem alloc_null : ∃ m, CallRun m ∧ ¬Honours m ⟨8, 8, 3, rfl⟩ := by
  have h := CallRun.free (m := .new) 0x1008 0x80 .new
    (by simp [Inv.new.freeBytes_eq, covered]) rfl
  refine ⟨_, h, ?_⟩
  rintro ⟨p, m', he, -, hnull⟩
  cases he
  rcases hnull rfl with hfull | hall
  · exact absurd hfull (by decide)
  · have := (hall 0 (by decide) rfl ⟨0x1008, by decide, by decide, by decide⟩).2
    exact absurd this (by decide)

end

end MiniVisor
