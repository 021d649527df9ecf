import MiniVisor.Checked

/-!
# Byte strings in a memory

`HoldsAt m a bytes` says that the bytes lie in the memory `m` from the address `a` on; it splits over `++`.
`matchBytes` compares a string with the memory and stops at the first difference. `fromBeBytes` and
`toBeBytes` are numbers of a fixed size with the highest byte first, and `alignUp` and `padding` are for
data that is aligned to words of four bytes.
-/

namespace Machine

/-- The bytes from `a` on are `bytes`. -/
def HoldsAt (m : ℕ → BitVec 8) : ℕ → List (BitVec 8) → Prop
  | _, [] => True
  | a, b :: bs => m a = b ∧ HoldsAt m (a + 1) bs

instance (m : ℕ → BitVec 8) : ∀ (a : ℕ) (bytes : List (BitVec 8)), Decidable (HoldsAt m a bytes)
  | _, [] => .isTrue trivial
  | a, _ :: bs =>
    have := instDecidableHoldsAt m (a + 1) bs
    inferInstanceAs (Decidable (_ ∧ _))

/-- `n` bytes of the memory. -/
def bytesAt (m : ℕ → BitVec 8) (a n : ℕ) : List (BitVec 8) :=
  (List.range n).map fun i => m (a + i)

/-- Compare with the memory up to the first difference. -/
def matchBytes (m : ℕ → BitVec 8) : List (BitVec 8) → ℕ → Bool × ℕ
  | [], p => (true, p)
  | c :: cs, p => if c = m p then matchBytes m cs (p + 1) else (false, p)

variable {m : ℕ → BitVec 8} {a : ℕ} {l l' : List (BitVec 8)}

theorem holdsAt_append : ∀ {a : ℕ} {l : List (BitVec 8)},
    HoldsAt m a (l ++ l') ↔ HoldsAt m a l ∧ HoldsAt m (a + l.length) l'
  | a, [] => by simp [HoldsAt]
  | a, b :: bs => by
    rw [List.cons_append, HoldsAt, HoldsAt, holdsAt_append, List.length_cons, and_assoc,
      show a + 1 + bs.length = a + (bs.length + 1) by omega]

theorem HoldsAt.get : ∀ {a : ℕ} {l : List (BitVec 8)}, HoldsAt m a l → ∀ {i : ℕ} (hi : i < l.length),
    m (a + i) = l[i]
  | _, _ :: _, h, 0, _ => h.1
  | a, _ :: bs, h, i + 1, hi => by
    have := h.2.get (i := i) (by simpa using hi)
    rwa [Nat.add_assoc, Nat.add_comm 1 i] at this

theorem holdsAt_of_get : ∀ {a : ℕ} {l : List (BitVec 8)}, (∀ i (hi : i < l.length), m (a + i) = l[i]) →
    HoldsAt m a l
  | _, [], _ => trivial
  | a, b :: bs, h => by
    refine ⟨h 0 (by simp), holdsAt_of_get fun i hi => ?_⟩
    rw [Nat.add_assoc, Nat.add_comm 1 i]
    exact h (i + 1) (by simpa using hi)

theorem HoldsAt.bytesAt (h : HoldsAt m a l) : bytesAt m a l.length = l := by
  refine List.ext_getElem (by simp [Machine.bytesAt]) fun i hi hi' => ?_
  simp [Machine.bytesAt, h.get hi']

/-- A comparison with what is there. -/
theorem HoldsAt.matchBytes (h : HoldsAt m a l) : matchBytes m l a = (true, a + l.length) := by
  induction l generalizing a with
  | nil => rfl
  | cons b bs ih =>
    rw [Machine.matchBytes, if_pos h.1.symm, ih h.2, List.length_cons]
    congr 1
    omega

/-- A comparison of a string without zeros with a string that ends with one. -/
theorem matchBytes_string {name l : List (BitVec 8)} (hname : ∀ c ∈ name, c ≠ 0#8) :
    ∀ {a : ℕ}, HoldsAt m a (l ++ [0#8]) → ∃ k ≤ l.length, (matchBytes m name a).2 = a + k ∧
      ((matchBytes m name a).1 = true ↔ name <+: l) ∧ (name <+: l → k = name.length) := by
  induction name generalizing l with
  | nil => exact fun {a} _ => ⟨0, Nat.zero_le _, rfl, by simp [matchBytes], fun _ => rfl⟩
  | cons c cs ih =>
    intro a h
    have hc : c ≠ 0#8 := hname c (by simp)
    cases l with
    | nil =>
      have hne : ¬c = m a := by
        rw [show m a = 0#8 from h.1]
        exact hc
      rw [matchBytes, if_neg hne]
      exact ⟨0, le_rfl, rfl, by simp, by simp⟩
    | cons b bs =>
      have hb : m a = b := h.1
      by_cases hcb : c = b
      · subst hcb
        obtain ⟨k, hk, hp, hiff, hlen⟩ := ih (fun x hx => hname x (List.mem_cons_of_mem c hx)) h.2
        rw [matchBytes, if_pos hb.symm, List.cons_prefix_cons]
        refine ⟨k + 1, by simpa using hk, by rw [hp]; omega, by simp [hiff], fun h => ?_⟩
        rw [hlen h.2, List.length_cons]
      · have hne : ¬c = m a := by rwa [hb]
        rw [matchBytes, if_neg hne, List.cons_prefix_cons]
        exact ⟨0, Nat.zero_le _, rfl, by simp [hcb], by simp [hcb]⟩

/-- A comparison of two strings, with the zero at the end. -/
theorem matchBytes_append (l l' : List (BitVec 8)) (a : ℕ) :
    matchBytes m (l ++ l') a =
      if (matchBytes m l a).1 then matchBytes m l' (matchBytes m l a).2 else matchBytes m l a := by
  induction l generalizing a with
  | nil => rfl
  | cons c cs ih =>
    rw [List.cons_append, matchBytes, matchBytes]
    split_ifs with h h' h'
    · rw [ih, if_pos h']
    · rw [ih, if_neg h']
    · cases h'
    · rfl

/-! ## Numbers -/

/-- The number with the given bytes, the highest first. -/
def fromBeBytes (bytes : List (BitVec 8)) : ℕ :=
  bytes.foldl (fun n b => n * 256 + b.toNat) 0

/-- The four bytes of a number, the highest first. -/
def toBeBytes (n : ℕ) : List (BitVec 8) :=
  [BitVec.ofNat 8 (n / 256 ^ 3), BitVec.ofNat 8 (n / 256 ^ 2), BitVec.ofNat 8 (n / 256),
    BitVec.ofNat 8 n]

theorem fromBeBytes_toBeBytes {n : ℕ} (hn : n < 2 ^ 32) : fromBeBytes (toBeBytes n) = n := by
  simp only [fromBeBytes, toBeBytes, List.foldl_cons, List.foldl_nil, BitVec.toNat_ofNat]
  omega

theorem fromBeBytes_lt (b₀ b₁ b₂ b₃ : BitVec 8) : fromBeBytes [b₀, b₁, b₂, b₃] < 2 ^ 32 := by
  have h₀ := b₀.isLt
  have h₁ := b₁.isLt
  have h₂ := b₂.isLt
  have h₃ := b₃.isLt
  simp only [fromBeBytes, List.foldl_cons, List.foldl_nil]
  omega

/-! ## Alignment -/

/-- The next multiple of four. -/
def alignUp (a : ℕ) : ℕ :=
  (a + 3) / 4 * 4

/-- Zeros up to the next multiple of four. -/
def padding (n : ℕ) : List (BitVec 8) :=
  List.replicate (alignUp n - n) 0#8

theorem length_append_padding : (l ++ padding l.length).length = alignUp l.length := by
  rw [List.length_append, padding, List.length_replicate, alignUp]
  omega

theorem alignUp_add {n : ℕ} (ha : a % 4 = 0) : alignUp (a + n) = a + alignUp n := by
  unfold alignUp
  omega

theorem alignUp_mod (n : ℕ) : alignUp n % 4 = 0 := by
  unfold alignUp
  omega

end Machine
