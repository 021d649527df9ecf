import Mathlib.Data.BitVec
import MiniVisor.Checked

/-!
# Bits and fields of words

A flag is a bit of a word, and is tested with a mask. A field is a range of bits. `loop_bits` is for a loop
that goes through the bits of a word, from the lowest one on, as long as there are any.
-/

namespace Machine

variable {w k : ℕ}

/-! ## Flags -/

/-- The test of bit `k`. -/
theorem and_twoPow_eq_zero (r : BitVec w) (hk : k < w) :
    r &&& BitVec.twoPow w k = 0#w ↔ r.getLsbD k = false := by
  rw [BitVec.and_twoPow]
  split_ifs with h
  · have hne : BitVec.twoPow w k ≠ 0#w := fun h0 => by
      have := congrArg (BitVec.getLsbD · k) h0
      simp [hk] at this
    simp [h, hne]
  · simpa using h

/-- A mask that is set. -/
theorem or_and_self (r m : BitVec w) : (r ||| m) &&& m = m := by
  ext i hi
  simp only [BitVec.getElem_and, BitVec.getElem_or]
  cases r[i] <;> cases m[i] <;> rfl

/-- A mask that is cleared. -/
theorem and_not_and_self (r m : BitVec w) : (r &&& ~~~m) &&& m = 0#w := by
  rw [BitVec.and_assoc, BitVec.and_comm (~~~m), BitVec.and_not_self]
  exact BitVec.and_zero

/-- Bits outside of a mask are cleared. -/
theorem and_not_and_of_disjoint (r : BitVec w) {m n : BitVec w} (h : n &&& m = 0#w) :
    (r &&& ~~~n) &&& m = r &&& m := by
  have hm : ~~~n &&& m = m := by
    ext i hi
    have hi' : (n &&& m)[i] = false := by simp [h]
    simp only [BitVec.getElem_and, BitVec.getElem_not] at hi' ⊢
    cases hn : n[i] <;> simp_all
  rw [BitVec.and_assoc, hm]

/-- A test in a wider word. -/
theorem setWidth_and_eq_zero {v : ℕ} (hv : w ≤ v) (r m : BitVec w) :
    r.setWidth v &&& m.setWidth v = 0#v ↔ r &&& m = 0#w := by
  rw [← BitVec.setWidth_and]
  constructor
  · intro h
    have := congrArg (BitVec.setWidth w) h
    rwa [BitVec.setWidth_setWidth_of_le _ hv, BitVec.setWidth_eq, BitVec.setWidth_zero] at this
  · intro h
    rw [h, BitVec.setWidth_zero]

/-- A wider word holds the same value. -/
theorem setWidth_eq_iff {v : ℕ} (hv : w ≤ v) {r m : BitVec w} :
    r.setWidth v = m.setWidth v ↔ r = m := by
  refine ⟨fun h => ?_, congrArg _⟩
  have := congrArg (BitVec.setWidth w) h
  rwa [BitVec.setWidth_setWidth_of_le _ hv, BitVec.setWidth_setWidth_of_le _ hv, BitVec.setWidth_eq,
    BitVec.setWidth_eq] at this

/-! ## Fields -/

/-- A mask of the lowest `k` bits. -/
theorem getLsbD_lowMask (hk : k < w) (i : ℕ) :
    ((1#w <<< k) - 1#w).getLsbD i = decide (i < k) := by
  have h1 : 1 < 2 ^ w := Nat.one_lt_two_pow (by omega)
  have hpow : 2 ^ k < 2 ^ w := Nat.pow_lt_pow_right (by decide) hk
  have hpos : 0 < 2 ^ k := Nat.two_pow_pos k
  have hval : ((1#w <<< k) - 1#w).toNat = 2 ^ k - 1 := by
    rw [BitVec.toNat_sub, BitVec.toNat_shiftLeft, BitVec.toNat_ofNat, Nat.mod_eq_of_lt h1,
      Nat.shiftLeft_eq, Nat.one_mul, Nat.mod_eq_of_lt hpow, show 2 ^ w - 1 + 2 ^ k = 2 ^ k - 1 + 2 ^ w by
        omega, Nat.add_mod_right, Nat.mod_eq_of_lt (by omega)]
  rw [BitVec.getLsbD, hval, Nat.testBit_two_pow_sub_one]

/-- The bits from `l` to `k`, moved to the right end. -/
theorem getLsbD_field (r : BitVec w) (hk : k < w) (l i : ℕ) :
    ((r &&& ((1#w <<< k) - 1#w)) >>> l).getLsbD i = (r.getLsbD (l + i) && decide (l + i < k)) := by
  rw [BitVec.getLsbD_ushiftRight, BitVec.getLsbD_and, getLsbD_lowMask hk]

/-- A word with one bit. -/
theorem getLsbD_one_shiftLeft (hk : k < w) (i : ℕ) : (1#w <<< k).getLsbD i = decide (i = k) := by
  rw [← BitVec.twoPow_eq, BitVec.getLsbD_twoPow]
  by_cases hi : k = i
  · subst hi
    simp [hk]
  · simp [hi, Ne.symm hi]

theorem one_shiftLeft_inj {i j : ℕ} (hi : i < w) (hj : j < w) (h : 1#w <<< i = 1#w <<< j) : i = j := by
  have hbit := congrArg (BitVec.getLsbD · i) h
  simp only [getLsbD_one_shiftLeft hi, getLsbD_one_shiftLeft hj] at hbit
  simpa using hbit

/-! ## Loops over the bits of a word -/

/-- A loop that does something for each bit that is set. `I` holds all the time, and the loop
returns if each bit is safe. -/
theorem loop_bits {σ : Type} {f : (ℕ × BitVec w) × σ → Exec (Iter ((ℕ × BitVec w) × σ) σ)}
    {N : ℕ} {P S : ℕ → Prop} {I : σ → Prop} (hdone : ∀ n s, f ((n, 0#w), s) = .ok (.done s))
    (hskip : ∀ n v s, n < N → v ≠ 0#w → v.getLsbD 0 = false →
      f ((n, v), s) = .ok (.next ((n + 1, v >>> 1), s)))
    (hbit : ∀ n v s, n < N → v ≠ 0#w → v.getLsbD 0 = true → P n → I s →
      (S n ∧ ∃ s', I s' ∧ f ((n, v), s) = .ok (.next ((n + 1, v >>> 1), s'))) ∨
        (¬S n ∧ ∃ t, f ((n, v), s) = .error t)) :
    ∀ (k fuel n : ℕ) (v : BitVec w) (s : σ), v.toNat < 2 ^ k → n + k ≤ N → k < fuel →
      (∀ b, v.getLsbD b = true → P (n + b)) → I s →
      (Exec.Returns (loop f fuel ((n, v), s)) ↔ ∀ b, v.getLsbD b = true → S (n + b)) ∧
        ∀ s', loop f fuel ((n, v), s) = .ok s' → I s'
  | _, 0, _, _, _, _, _, hf, _, _ => by omega
  | k, fuel + 1, n, v, s, hv, hlast, hf, hP, hI => by
    by_cases h0 : v = 0#w
    · subst h0
      rw [loop_done (hdone n s) (Nat.succ_pos fuel)]
      exact ⟨iff_of_true (Exec.returns_ok s) (by simp), fun s' hs => Except.ok.inj hs ▸ hI⟩
    obtain ⟨k, rfl⟩ : ∃ k', k = k' + 1 := by
      refine ⟨k - 1, ?_⟩
      rcases Nat.eq_zero_or_pos k with rfl | hk
      · exact absurd (BitVec.eq_of_toNat_eq (by simpa using hv)) h0
      · omega
    have hshift : ∀ b, (v >>> 1).getLsbD b = v.getLsbD (b + 1) := fun b => by
      rw [BitVec.getLsbD_ushiftRight, Nat.add_comm]
    have hv' : (v >>> 1).toNat < 2 ^ k := by
      rw [BitVec.toNat_ushiftRight, Nat.shiftRight_eq_div_pow]
      omega
    have hP' : ∀ b, (v >>> 1).getLsbD b = true → P (n + 1 + b) := fun b hb => by
      rw [Nat.add_assoc, Nat.add_comm 1 b]
      exact hP (b + 1) (by rwa [← hshift])
    have hrest : (∀ b, (v >>> 1).getLsbD b = true → S (n + 1 + b)) ↔
        ∀ b, v.getLsbD (b + 1) = true → S (n + (b + 1)) :=
      forall_congr' fun b => by rw [hshift, Nat.add_assoc, Nat.add_comm 1 b]
    have ih := fun s' => loop_bits hdone hskip hbit k fuel (n + 1) (v >>> 1) s' hv' (by omega) (by omega)
      hP'
    by_cases hlow : v.getLsbD 0 = true
    · rcases hbit n v s (by omega) h0 hlow (hP 0 hlow) hI with ⟨hsafe, s₁, hI₁, hs⟩ | ⟨hno, t, hs⟩
      · obtain ⟨hiff, hkeep⟩ := ih s₁ hI₁
        rw [loop_next hs]
        refine ⟨(hiff.trans hrest).trans ⟨fun h b hb => ?_, fun h b => h (b + 1)⟩, hkeep⟩
        cases b with
        | zero => exact hsafe
        | succ b => exact h b hb
      · have herr : loop f (fuel + 1) ((n, v), s) = .error t := by simp only [loop, hs]
        rw [herr]
        exact ⟨iff_of_false (Exec.not_returns_error t) fun h => hno (h 0 hlow), fun s' hs => by cases hs⟩
    · obtain ⟨hiff, hkeep⟩ := ih s hI
      rw [loop_next (hskip n v s (by omega) h0 (by simpa using hlow))]
      refine ⟨(hiff.trans hrest).trans ⟨fun h b hb => ?_, fun h b => h (b + 1)⟩, hkeep⟩
      cases b with
      | zero => exact absurd hb hlow
      | succ b => exact h b hb

end Machine
