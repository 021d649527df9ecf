import MiniVisor.AllocatorProgress

/-!
# The scan of `allocate`

`allocate` looks through the free lists from the order of the size on. Under the invariant this
is a search in one list of entries, `scanned`, for the first with room for the block : the
first multiple of the alignment in the entry, if the block ends in the entry (`room`).
`Inv.allocate_eq` says so as an equation, loops included. Since every entry is in the list of its
size and the orders grow with the sizes, an entry with room is among those looked at.
-/

namespace MiniVisor

open Machine

/-! ## Orders -/

theorem sizeToPageOrderFrom_le (size : ℕ) : ∀ n k, sizeToPageOrderFrom size n k ≤ n + k
  | 0, k => by simp [sizeToPageOrderFrom]
  | n + 1, k => by
    have ih := sizeToPageOrderFrom_le size n (k + 1)
    unfold sizeToPageOrderFrom
    split_ifs <;> omega

theorem le_sizeToPageOrderFrom (size : ℕ) : ∀ n k, k ≤ sizeToPageOrderFrom size n k
  | 0, k => le_rfl
  | n + 1, k => by
    have ih := le_sizeToPageOrderFrom size n (k + 1)
    unfold sizeToPageOrderFrom
    split_ifs <;> omega

theorem sizeToPageOrder_lt (size : ℕ) : sizeToPageOrder size < numOfFreeList :=
  Nat.lt_succ_of_le (sizeToPageOrderFrom_le size (numOfFreeList - 1) 0)

/-- A larger size has no smaller order. -/
theorem sizeToPageOrder_mono {a b : ℕ} (h : a ≤ b) : sizeToPageOrder a ≤ sizeToPageOrder b := by
  suffices ∀ n k, sizeToPageOrderFrom a n k ≤ sizeToPageOrderFrom b n k from this _ _
  intro n
  induction n with
  | zero => exact fun k => le_rfl
  | succ n ih =>
    intro k
    unfold sizeToPageOrderFrom
    split_ifs with ha hb
    · exact ih (k + 1)
    · omega
    · exact (Nat.le_succ k).trans (le_sizeToPageOrderFrom b n (k + 1))
    · exact le_rfl

/-! ## The search -/

namespace MemoryAllocator

/-- The address in entry `i` for a block of `size` bytes, if the block fits there. -/
def room (p : MemoryEntryPool) (size o i : ℕ) : Option ℕ :=
  if roundUp (p.startAddress i) o + size ≤ p.endAddress i + 1 then
    some (roundUp (p.startAddress i) o)
  else none

/-- The first multiple is behind the address space, and computing it traps. -/
def Overflows (p : MemoryEntryPool) (size o i : ℕ) : Prop :=
  o ≠ 0 ∧ p.startAddress i ≠ 0 ∧ size ≤ p.size i ∧ 2 ^ 64 ≤ roundUp (p.startAddress i) o

instance (p : MemoryEntryPool) (size o i : ℕ) : Decidable (Overflows p size o i) :=
  inferInstanceAs (Decidable (_ ∧ _))

/-- The entries in the order in which `allocate` looks at them. -/
def scanned (m : MemoryAllocator) (size : ℕ) : List ℕ :=
  (List.range' (sizeToPageOrder size) (numOfFreeList - sizeToPageOrder size)).flatMap m.freeEntries

/-- An entry with the address of a block in it. -/
def place (p : MemoryEntryPool) (size o i : ℕ) : Option (ℕ × ℕ) :=
  (room p size o i).map fun a => (i, a)

/-- The first entry that has room, with the address of the block. -/
def picked (m : MemoryAllocator) (size o : ℕ) : Option (ℕ × ℕ) :=
  (m.scanned size).findSome? (place m.pool size o)

/-- What ends the scan at an entry : a trap, or room for the block. -/
def visit (p : MemoryEntryPool) (size o i : ℕ) : Option (Exec (ℕ × ℕ)) :=
  if Overflows p size o i then some (.error .overflow) else (place p size o i).map .ok

/-- Where the scan ends. -/
def found (m : MemoryAllocator) (size o : ℕ) : Option (Exec (ℕ × ℕ)) :=
  (m.scanned size).findSome? (visit m.pool size o)

/-- The end of `allocate` : the block is taken from the entry that was found. -/
def take (m : MemoryAllocator) (size : ℕ) :
    Option (ℕ × ℕ) → Exec (MemoryResult ℕ × MemoryAllocator)
  | none => .ok (.error .noMemory, m)
  | some (i, a) => do
    let (r, m) ← m.useRange i a size
    pure (r.map fun _ => a, m)

end MemoryAllocator

open MemoryAllocator

section

variable {m m' : MemoryAllocator} {L : List ℕ} {B : ℕ → List ℕ} {size o i a : ℕ}

theorem room_eq_some {p : MemoryEntryPool} (h : room p size o i = some a) :
    a = roundUp (p.startAddress i) o ∧ a + size ≤ p.endAddress i + 1 := by
  unfold room at h
  split_ifs at h with hr
  cases h
  exact ⟨rfl, hr⟩

theorem addressToAllocate_eq {p : MemoryEntryPool}
    (hle : p.startAddress i ≤ p.endAddress i) (hlt : p.endAddress i + 1 < 2 ^ 64)
    (hz : size ≠ 0) : addressToAllocate p size o i =
      if Overflows p size o i then .error .overflow else .ok (room p size o i) := by
  have hsize : p.size i = p.endAddress i - p.startAddress i + 1 := rfl
  have hsz : p.Sized i := ⟨hle, by rw [hsize]; omega⟩
  have hup := le_roundUp (p.startAddress i) o
  rw [addressToAllocate, MemoryEntryPool.getSize_of_sized hsz, Exec.ok_bind]
  by_cases hfit : size ≤ p.size i
  · rw [if_pos hfit]
    by_cases h0 : o = 0
    · subst h0
      rw [room, roundUp_zero_right, if_neg (by simp), if_neg (by simp [Overflows]),
        if_pos (by omega)]
      rfl
    rw [if_pos h0]
    by_cases hs : p.startAddress i = 0
    · rw [hs, alignAddressAndAvailableSize, if_pos rfl, Exec.ok_bind, room, hs, roundUp_zero_left,
        if_neg (by simp [Overflows, hs]), if_pos (by omega)]
      dsimp only
      rw [if_neg (by omega)]
      rfl
    have hal := roundUp_eq (o := o) hs
    rw [alignAddressAndAvailableSize, if_neg hs]
    by_cases ho : o < 64
    · have hmask := land_bitNot_two_pow (w := 64) (k := o) (x := p.startAddress i - 1) (by omega)
        (by omega)
      rw [checkedShl_one_eq_ok.mpr ⟨by omega, rfl⟩, Exec.ok_bind]
      dsimp only
      rw [hmask]
      by_cases hover : 2 ^ 64 ≤ roundUp (p.startAddress i) o
      · rw [if_pos ⟨h0, hs, hfit, hover⟩, checkedAdd, if_neg (by omega)]
        rfl
      · rw [if_neg fun hc => hover hc.2.2.2, checkedAdd_of_lt (by omega), Exec.ok_bind, ← hal, room]
        by_cases hav : p.size i > roundUp (p.startAddress i) o - p.startAddress i
        · rw [if_pos hav, Exec.pure_eq_ok, Exec.ok_bind]
          by_cases hr : roundUp (p.startAddress i) o + size ≤ p.endAddress i + 1
          · rw [if_neg (by omega), if_pos hr]
            rfl
          · rw [if_pos (by omega), if_neg hr]
            rfl
        · rw [if_neg hav, Exec.pure_eq_ok, Exec.ok_bind, if_pos (by omega), if_neg (by omega)]
          rfl
    · -- The shift by the order traps before anything is added.
      have hpow : 2 ^ 64 ≤ 2 ^ o := Nat.pow_le_pow_right (by decide) (by omega)
      rw [if_pos ⟨h0, hs, hfit, by omega⟩, checkedShl, if_neg ho]
      rfl
  · rw [if_neg hfit, if_neg fun hc => hfit hc.2.2.1, room, if_neg (by omega)]
    rfl

/-- The scan of one free list, from an entry on. -/
theorem allocateStep_loop_eq (hz : size ≠ 0) (hf : size ≤ m.freeSize) :
    ∀ (C A : List ℕ) (i fuel : ℕ), Linked m.pool.listNext m.pool.listPrev none (A ++ i :: C) none →
      (∀ j ∈ i :: C, j < poolSize ∧ addressToAllocate m.pool size o j =
        if Overflows m.pool size o j then .error .overflow else .ok (room m.pool size o j)) →
      C.length < fuel →
      loop (m.allocateStep size o) fuel i =
        match (i :: C).findSome? (visit m.pool size o) with
        | none => .ok none
        | some found => (found >>= fun q => m.take size (some q)).map some
  | _, _, _, 0, _, _, hfuel => by omega
  | C, A, i, fuel + 1, hl, hv, hfuel => by
    have hi := (hv i (by simp)).2
    have hn : m.pool.listNext i = C.head? := by simpa using hl.node.2
    rw [List.findSome?_cons]
    by_cases hover : Overflows m.pool size o i
    · rw [if_pos hover] at hi
      simp only [loop, allocateStep, hi, Exec.error_bind, visit, hover, if_true]
      rfl
    rw [if_neg hover] at hi
    cases hr : room m.pool size o i with
    | some a =>
      have huse : m.defineUsedMemory a size 0 (some i) = m.useRange i a size := by
        simp [defineUsedMemory, defineUsedRange, hz, not_lt.mpr hf]
      simp only [loop, allocateStep, hi, hr, Exec.ok_bind, huse, visit, hover, if_false, place,
        Option.map_some, take]
      cases m.useRange i a size with
      | error t => rfl
      | ok q => rfl
    | none =>
      simp only [loop, allocateStep, hi, hr, Exec.ok_bind, hn, visit, hover, if_false, place,
        Option.map_none]
      cases C with
      | nil => rfl
      | cons c C =>
        have ih := allocateStep_loop_eq hz hf C (A ++ [i]) c fuel (by simpa using hl)
          (fun j hj => hv j (by simp [hj])) (by simp at hfuel; omega)
        rw [List.head?_cons, Option.bind_some,
          MemoryEntryPool.getMemoryEntry_of_lt (hv c (by simp)).1]
        exact ih

theorem Inv.mem_of_scanned (h : Inv m L B) (hi : i ∈ m.scanned size) : i ∈ L := by
  obtain ⟨k, -, hik⟩ := List.mem_flatMap.mp hi
  rw [h.shape.freeEntries_eq] at hik
  exact ((h.shape.listed i k).mp hik).1

/-- `allocate` under the invariant. -/
theorem Inv.allocate_eq_found (h : Inv m L B) (hlt : ∀ i ∈ L, m.pool.endAddress i + 1 < 2 ^ 64)
    (hz : size ≠ 0) (hf : size < m.freeSize) :
    m.allocate size o = match m.found size o with
      | none => .ok (.error .noMemory, m)
      | some x => x >>= fun q => m.take size (some q) := by
  have haddr : ∀ {k j}, j ∈ B k → j < poolSize ∧ addressToAllocate m.pool size o j =
      if Overflows m.pool size o j then .error .overflow else .ok (room m.pool size o j) := by
    intro k j hj
    have hjL := ((h.shape.listed j k).mp hj).1
    exact ⟨(h.shape.lists.valid hj).1, addressToAllocate_eq
      (h.separated.1 _ (List.mem_map_of_mem hjL)) (hlt j hjL) hz⟩
  have hfrom : ∀ n k, m.allocateFrom size o n k =
      match ((List.range' k n).flatMap m.freeEntries).findSome? (visit m.pool size o) with
      | none => .ok (.error .noMemory, m)
      | some x => x >>= fun q => m.take size (some q) := by
    intro n
    induction n with
    | zero => exact fun k => rfl
    | succ n ih =>
      intro k
      have hhead : m.freeList k = (B k).head? := h.shape.lists.head k
      rw [List.range'_succ, List.flatMap_cons, List.findSome?_append, allocateFrom, hhead,
        h.shape.freeEntries_eq k]
      cases hk : B k with
      | nil => exact ih (k + 1)
      | cons i C =>
        have hmem : ∀ j ∈ i :: C, j ∈ B k := fun j hj => hk ▸ hj
        have hloop := allocateStep_loop_eq (o := o) hz hf.le C [] i (poolSize + 1)
          (hk ▸ h.shape.lists.linked k) (fun j hj => haddr (hmem j hj)) (by
            have := h.shape.lists.length_le k
            rw [hk, List.length_cons] at this
            omega)
        dsimp only [List.head?_cons]
        rw [MemoryEntryPool.getMemoryEntry_of_lt (haddr (hmem i (by simp))).1]
        dsimp only
        rw [hloop]
        cases (i :: C).findSome? (visit m.pool size o) with
        | none => exact ih (k + 1)
        | some found =>
          dsimp only [Option.some_or]
          cases found >>= fun q => m.take size (some q) with
          | error t => rfl
          | ok q => rfl
  rw [MemoryAllocator.allocate, if_neg hz, if_neg (not_le.mpr hf)]
  exact hfrom _ _

/-- Below `2 ^ 48` no address overflows. -/
theorem not_overflows {p : MemoryEntryPool} (hle : p.startAddress i ≤ p.endAddress i)
    (hlt : p.endAddress i < 2 ^ 48) (ho : o < 48) : ¬Overflows p size o i := by
  rintro ⟨-, hs, -, hover⟩
  have hpow : 2 ^ o < 2 ^ 48 := Nat.pow_lt_pow_right (by decide) ho
  have hdown := Nat.div_mul_le_self (p.startAddress i - 1) (2 ^ o)
  rw [roundUp_eq hs] at hover
  omega

theorem Inv.found_eq (h : Inv m L B) (hlt : ∀ i ∈ L, m.pool.endAddress i < 2 ^ 48)
    (ho : o < 48) : m.found size o = (m.picked size o).map .ok := by
  rw [found, picked, List.map_findSome?, ← List.head?_filterMap, ← List.head?_filterMap]
  congr 1
  refine List.filterMap_congr fun i hi => ?_
  have hiL := h.mem_of_scanned hi
  rw [visit, if_neg (not_overflows (h.separated.1 _ (List.mem_map_of_mem hiL)) (hlt i hiL) ho)]
  rfl

theorem Inv.allocate_eq (h : Inv m L B) (hlt : ∀ i ∈ L, m.pool.endAddress i < 2 ^ 48)
    (ho : o < 48) (hz : size ≠ 0) (hf : size < m.freeSize) :
    m.allocate size o = m.take size (m.picked size o) := by
  rw [h.allocate_eq_found (fun i hi => by have := hlt i hi; omega) hz hf, h.found_eq hlt ho]
  cases m.picked size o with
  | none => rfl
  | some found => rfl

/-- An entry that `allocate` finds is in the chain, and has room. -/
theorem Inv.picked_eq_some (h : Inv m L B) (hp : m.picked size o = some (i, a)) :
    i ∈ L ∧ room m.pool size o i = some a := by
  obtain ⟨j, hj, hplace⟩ := List.exists_of_findSome?_eq_some hp
  obtain ⟨b, hroom, hb⟩ := Option.map_eq_some_iff.mp hplace
  obtain ⟨rfl, rfl⟩ := Prod.ext_iff.mp hb
  exact ⟨h.mem_of_scanned hj, hroom⟩

/-- An entry that is large enough is in one of the lists that `allocate` looks at. -/
theorem Inv.mem_scanned (h : Inv m L B) (hi : i ∈ L) (hsize : size ≤ m.pool.size i) :
    i ∈ m.scanned size := by
  refine List.mem_flatMap.mpr ⟨sizeToPageOrder (m.pool.size i), ?_, ?_⟩
  · have h1 := sizeToPageOrder_mono hsize
    have h2 := sizeToPageOrder_lt (m.pool.size i)
    exact List.mem_range'_1.mpr ⟨h1, by omega⟩
  · rw [h.shape.freeEntries_eq, h.shape.listed]
    exact ⟨hi, rfl⟩

/-- An entry with room is large enough. -/
theorem le_size_of_room {p : MemoryEntryPool} (h : room p size o i = some a) :
    size ≤ p.size i := by
  obtain ⟨ha, hfit⟩ := room_eq_some h
  have hup := le_roundUp (p.startAddress i) o
  simp only [MemoryEntryPool.size]
  omega

theorem Inv.picked_eq_none (h : Inv m L B) (hp : m.picked size o = none) (hi : i ∈ L) :
    room m.pool size o i = none := by
  by_contra hne
  obtain ⟨a, hroom⟩ := Option.ne_none_iff_exists'.mp hne
  have := List.findSome?_eq_none_iff.mp hp i (h.mem_scanned hi (le_size_of_room hroom))
  rw [place, hroom] at this
  cases this

end

end MiniVisor
