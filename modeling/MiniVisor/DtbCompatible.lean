import MiniVisor.DeviceTree

/-!
# Lists of compatible strings

The value of `compatible` is a list of strings, each with a zero behind it. `_is_device_compatible`
goes through it with one cursor, which compares until the first difference and then skips to the end
of the string.

Here the function reads its bytes through `read`, which may trap where there is nothing to read
(`isDeviceCompatibleFrom`). With a memory that has all bytes it is `isDeviceCompatible`. On a list
of strings it says whether the string is one of them, also if all that can be read is the value
itself (`isDeviceCompatible_reads`), so it reads nothing behind the value. -/

namespace MiniVisor

open Machine

namespace Dtb

/-- Compare with the bytes that are read, up to the first difference. -/
def matchRead (read : ℕ → Exec (BitVec 8)) : List (BitVec 8) → ℕ → Exec (Bool × ℕ)
  | [], p => .ok (true, p)
  | c :: cs, p => do
    let b ← read p
    if c = b then matchRead read cs (p + 1) else pure (false, p)

/-- One iteration of the loop of `_is_device_compatible`. -/
def compatibleStepFrom (read : ℕ → Exec (BitVec 8)) (info : DtbProperty)
    (compatible : List (BitVec 8)) : ℕ × Bool → Exec (Iter (ℕ × Bool) Bool)
  | (p, skip) =>
    if p < info.len then
      if skip then do
        let b ← read (info.address + p)
        pure (.next (p + 1, b ≠ 0#8))
      else do
        let (same, q) ← matchRead read (compatible ++ [0#8]) (info.address + p)
        if same then pure (.done true) else pure (.next (q - info.address, true))
    else .ok (.done false)

/-- `_is_device_compatible`, with a memory that may have no bytes at some addresses. -/
def isDeviceCompatibleFrom (read : ℕ → Exec (BitVec 8)) (info : DtbProperty)
    (compatible : List (BitVec 8)) : Exec Bool :=
  loop (compatibleStepFrom read info compatible) maxIterations (0, false)

end Dtb

open Dtb

section

variable {d : Dtb} {info : DtbProperty} {read : ℕ → Exec (BitVec 8)} {m : ℕ → BitVec 8} {a : ℕ}

theorem matchRead_total (m : ℕ → BitVec 8) (l : List (BitVec 8)) (a : ℕ) :
    matchRead (fun x => .ok (m x)) l a = .ok (matchBytes m l a) := by
  induction l generalizing a with
  | nil => rfl
  | cons c cs ih =>
    rw [matchRead, matchBytes, Exec.ok_bind]
    split_ifs
    · exact ih (a + 1)
    · rfl

/-- With all bytes there the two functions are the same. -/
theorem isDeviceCompatibleFrom_total (d : Dtb) (info : DtbProperty) (c : List (BitVec 8)) :
    isDeviceCompatibleFrom (fun x => .ok (d.memory x)) info c = d.isDeviceCompatible info c := by
  have hstep : compatibleStepFrom (fun x => .ok (d.memory x)) info c = d.compatibleStep info c := by
    funext ⟨p, skip⟩
    rw [compatibleStepFrom, compatibleStep, matchRead_total]
    rcases matchBytes d.memory (c ++ [0#8]) (info.address + p) with ⟨_ | _, q⟩ <;> rfl
  rw [isDeviceCompatibleFrom, hstep, isDeviceCompatible]

/-- A comparison with a string that ends with a zero reads no further than this zero. -/
theorem matchRead_string {c s : List (BitVec 8)} (hc : IsString c) (h : HoldsAt m a (s ++ [0#8]))
    (hread : ∀ x, a ≤ x → x ≤ a + s.length → read x = .ok (m x)) :
    matchRead read (c ++ [0#8]) a = .ok (matchBytes m (c ++ [0#8]) a) := by
  induction s generalizing c a with
  | nil =>
    have hzero : m a = 0#8 := h.1
    cases c with
    | nil => simp [matchRead, matchBytes, hread a le_rfl le_rfl, hzero]
    | cons b c =>
      have hb : b ≠ 0#8 := hc b (by simp)
      simp [matchRead, matchBytes, hread a le_rfl le_rfl, hzero, hb]
  | cons b s ih =>
    rw [List.length_cons] at hread
    have hfirst := hread a le_rfl (by omega)
    have hrest : ∀ c, IsString c → matchRead read (c ++ [0#8]) (a + 1) =
        .ok (matchBytes m (c ++ [0#8]) (a + 1)) := fun c hc =>
      ih hc h.2 fun x hx hx' => hread x (by omega) (by omega)
    cases c with
    | nil =>
      rw [List.nil_append, matchRead, matchBytes, hfirst, Exec.ok_bind]
      split_ifs <;> rfl
    | cons b' c =>
      rw [List.cons_append, matchRead, matchBytes, hfirst, Exec.ok_bind]
      split_ifs
      · exact hrest c fun x hx => hc x (List.mem_cons_of_mem b' hx)
      · rfl

/-- Inside of the value an iteration reads only bytes of it. -/
theorem compatibleStepFrom_eq {c : List (BitVec 8)} (hc : IsString c)
    (hread : ∀ i < info.len, read (info.address + i) = .ok (d.memory (info.address + i)))
    {rest : List (List (BitVec 8))} {s : ℕ × Bool} (hrest : ∀ x ∈ rest, IsString x)
    (h : AtStrings d info rest s) : compatibleStepFrom read info c s = d.compatibleStep info c s := by
  obtain ⟨p, skip⟩ := s
  rw [compatibleStepFrom, compatibleStep]
  by_cases hp : p < info.len
  · rw [if_pos hp, if_pos hp]
    cases skip with
    | true =>
      rw [if_pos rfl, if_pos rfl, hread p hp]
      rfl
    | false =>
      obtain ⟨hbytes, hlen⟩ := h
      cases rest with
      | nil =>
        rw [encodeStrings, List.flatMap_nil, List.length_nil] at hlen
        omega
      | cons s rest =>
        rw [encodeStrings_cons, ← List.singleton_append, ← List.append_assoc] at hbytes hlen
        rw [List.length_append, List.length_append, List.length_singleton] at hlen
        have hmatch : matchRead read (c ++ [0#8]) (info.address + p) =
            .ok (matchBytes d.memory (c ++ [0#8]) (info.address + p)) := by
          refine matchRead_string hc (holdsAt_append.mp hbytes).1 fun x hx hx' => ?_
          obtain ⟨i, rfl⟩ := Nat.exists_eq_add_of_le (show info.address ≤ x by omega)
          exact hread i (by omega)
        rw [if_neg (by simp), if_neg (by simp), hmatch]
        rcases matchBytes d.memory (c ++ [0#8]) (info.address + p) with ⟨_ | _, q⟩ <;> rfl
  · rw [if_neg hp, if_neg hp]

/-- On a list of strings `_is_device_compatible` says whether the string is one of them. It does so
whatever a read of a byte that is not in the value does. -/
theorem isDeviceCompatible_reads {c : List (BitVec 8)} (hc : IsString c)
    {strings : List (List (BitVec 8))} (hstrings : ∀ s ∈ strings, IsString s)
    (h : HoldsAt d.memory info.address (encodeStrings strings))
    (hlen : (encodeStrings strings).length = info.len) (hlt : info.len < 2 ^ 32) :
    d.isDeviceCompatible info c = .ok (decide (c ∈ strings)) ∧
      ∀ read, (∀ i < info.len, read (info.address + i) = .ok (d.memory (info.address + i))) →
        isDeviceCompatibleFrom read info c = .ok (decide (c ∈ strings)) :=
  ⟨isDeviceCompatible_eq hc hstrings h hlen hlt, fun _ hread =>
    compatibleLoop_eq hc hstrings h hlen hlt fun _ _ => compatibleStepFrom_eq hc hread⟩

end

/-- The strings `ab` and `c`, in a memory with nothing else. -/
def twoStrings : Dtb where
  memory a := (encodeStrings [[0x61#8, 0x62#8], [0x63#8]]).getD (a - 0x1000) 0xFF#8
  header := 0

def twoStringsProperty : DtbProperty where
  address := 0x1000
  addressCells := 2
  sizeCells := 1
  len := 5

/-- Only the bytes of the two strings can be read. -/
def readTwoStrings (a : ℕ) : Exec (BitVec 8) :=
  if 0x1000 ≤ a ∧ a < 0x1005 then .ok (twoStrings.memory a) else .error .nullDeref

/-- `c` is one of the two strings, `b` is not, and no byte behind the two is read. -/
theorem isDeviceCompatible_reads_two :
    isDeviceCompatibleFrom readTwoStrings twoStringsProperty [0x63#8] = .ok true ∧
      isDeviceCompatibleFrom readTwoStrings twoStringsProperty [0x62#8] = .ok false := by
  have hstrings : ∀ s ∈ [[0x61#8, 0x62#8], [0x63#8]], IsString s := by
    simp [IsString]
  have hheld : HoldsAt twoStrings.memory twoStringsProperty.address
      (encodeStrings [[0x61#8, 0x62#8], [0x63#8]]) := by
    decide
  have hlen : (encodeStrings [[0x61#8, 0x62#8], [0x63#8]]).length = twoStringsProperty.len := by
    decide
  have hread : ∀ i < 5, readTwoStrings (0x1000 + i) = .ok (twoStrings.memory (0x1000 + i)) :=
    fun i hi => if_pos ⟨by omega, by omega⟩
  constructor
  · exact (isDeviceCompatible_reads (by simp [IsString]) hstrings hheld hlen (by decide)).2 _ hread
  · exact (isDeviceCompatible_reads (by simp [IsString]) hstrings hheld hlen (by decide)).2 _ hread

end MiniVisor
