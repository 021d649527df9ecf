import Mathlib.Tactic.Common
import Mathlib.Tactic.Linarith
import Mathlib.Tactic.Ring
import Mathlib.Data.Set.Basic
import Mathlib.Data.List.Nodup
import Mathlib.Data.Finset.Prod
import Mathlib.Logic.Function.Basic
import Mathlib.Logic.Relation

/-!
# Checked execution

A program built with overflow checks either returns or stops at a trap. `Exec` is that
outcome, `checkedAdd` and its siblings are the machine's operations on `w`-bit unsigned
integers, and `Exec.bind_eq_ok` takes a returning computation apart.

`loop` runs a body until it leaves, with fuel for the iterations it may take. A property of
the whole loop follows from one iteration in two ways : `loop_ok` for a loop that has
returned, `loop_returns` for a loop whose variant decreases. `Throughout body C n s` says
that every iteration starts in a state satisfying `C`; it is how a condition on the state
before a step becomes a condition on a run of steps. `loop_finishes` is for a loop that ends
in one way or the other, a trap included.
-/

namespace Machine

/-- Why a computation stopped without a result. -/
inductive Trap
  | overflow
  | divByZero
  | nullDeref
  | outOfBounds
  | assertion
  | unwrap
  | outOfFuel
  /-- A trap inside a component that the caller uses as a whole. -/
  | callee (t : Trap)
  deriving DecidableEq, Repr

/-- A computation that returns a value or stops at a trap. -/
abbrev Exec (α : Type) := Except Trap α

namespace Exec

variable {α β : Type}

@[simp] theorem ok_bind (a : α) (f : α → Exec β) : (Except.ok a >>= f : Exec β) = f a :=
  rfl

@[simp] theorem error_bind (t : Trap) (f : α → Exec β) :
    (Except.error t >>= f : Exec β) = Except.error t :=
  rfl

@[simp] theorem pure_eq_ok (a : α) : (pure a : Exec α) = Except.ok a :=
  rfl

/-- A sequence returns exactly when both parts return. -/
theorem bind_eq_ok {x : Exec α} {f : α → Exec β} {b : β} :
    x >>= f = Except.ok b ↔ ∃ a, x = Except.ok a ∧ f a = Except.ok b := by
  cases x with
  | error t => simp
  | ok a => simp

/-- The computation returns. -/
def Returns (x : Exec α) : Prop :=
  ∃ a, x = Except.ok a

@[simp] theorem returns_ok (a : α) : Returns (Except.ok a : Exec α) :=
  ⟨a, rfl⟩

@[simp] theorem not_returns_error (t : Trap) : ¬Returns (Except.error t : Exec α) := by
  rintro ⟨a, h⟩
  cases h

theorem returns_bind {x : Exec α} {f : α → Exec β} :
    Returns (x >>= f) ↔ ∃ a, x = Except.ok a ∧ Returns (f a) := by
  simp only [Returns, bind_eq_ok]
  exact ⟨fun ⟨b, a, ha, hb⟩ => ⟨a, ha, b, hb⟩, fun ⟨a, ha, b, hb⟩ => ⟨b, a, ha, hb⟩⟩

theorem returns_map (x : Exec α) (f : α → β) :
    Returns (x >>= fun a => Except.ok (f a)) ↔ Returns x := by
  rw [returns_bind]
  exact ⟨fun ⟨a, ha, _⟩ => ⟨a, ha⟩, fun ⟨a, ha⟩ => ⟨a, ha, returns_ok _⟩⟩

/-- A condition for both branches is a condition for the choice between them. -/
theorem returns_ite {c : Prop} [Decidable c] {x y : Exec α} {Q : Prop}
    (hx : c → (Returns x ↔ Q)) (hy : ¬c → (Returns y ↔ Q)) :
    Returns (if c then x else y) ↔ Q := by
  split_ifs with h
  · exact hx h
  · exact hy h

/-- The computation returns or traps, but does not run out of fuel : a loop in it ends. -/
def Finishes (x : Exec α) : Prop :=
  x ≠ .error .outOfFuel

theorem Returns.finishes {x : Exec α} (h : Returns x) : Finishes x := by
  obtain ⟨a, rfl⟩ := h
  exact fun hc => by cases hc

theorem finishes_ok (a : α) : Finishes (Except.ok a : Exec α) :=
  (returns_ok a).finishes

/-- A sequence finishes if its parts do. -/
theorem Finishes.bind {x : Exec α} {f : α → Exec β} (hx : Finishes x)
    (hf : ∀ a, x = Except.ok a → Finishes (f a)) : Finishes (x >>= f) := by
  cases x with
  | error t => exact fun hc => hx (by simpa using hc)
  | ok a => exact hf a rfl

theorem finishes_ite {c : Prop} [Decidable c] {x y : Exec α} (hx : Finishes x) (hy : Finishes y) :
    Finishes (if c then x else y) := by
  split_ifs
  · exact hx
  · exact hy

/-- No loop runs out of fuel, also not in a component that is used as a whole. -/
def Halts (x : Exec α) : Prop :=
  ∀ t, x = .error t → t ≠ .outOfFuel ∧ t ≠ .callee .outOfFuel

theorem halts_ok (a : α) : Halts (Except.ok a : Exec α) := by
  intro t h
  cases h

theorem halts_error {t : Trap} (h : t ≠ .outOfFuel) (h' : t ≠ .callee .outOfFuel) :
    Halts (Except.error t : Exec α) := by
  intro t' ht
  cases ht
  exact ⟨h, h'⟩

theorem Halts.finishes {x : Exec α} (h : Halts x) : Finishes x :=
  fun hx => (h _ hx).1 rfl

theorem Halts.bind {x : Exec α} {f : α → Exec β} (hx : Halts x)
    (hf : ∀ a, x = Except.ok a → Halts (f a)) : Halts (x >>= f) := by
  cases x with
  | error t => exact fun t' ht => hx t' (by simpa using ht)
  | ok a => exact hf a rfl

theorem halts_ite {c : Prop} [Decidable c] {x y : Exec α} (hx : Halts x) (hy : Halts y) :
    Halts (if c then x else y) := by
  split_ifs
  · exact hx
  · exact hy

/-- The computation stops at no trap of its own : it returns, or a loop does not end, or a component
that is used as a whole traps. -/
def Safe (x : Exec α) : Prop :=
  ∀ t, x = .error t → t = .outOfFuel ∨ ∃ t', t = .callee t'

@[simp] theorem safe_ok (a : α) : Safe (Except.ok a : Exec α) := by
  intro t h
  cases h

theorem safe_error {t : Trap} : Safe (Except.error t : Exec α) ↔ t = .outOfFuel ∨ ∃ t', t = .callee t' :=
  ⟨fun h => h t rfl, fun h _ ht => Except.error.inj ht ▸ h⟩

/-- A sequence is safe if its parts are, in the states they find. -/
theorem safe_bind {x : Exec α} {f : α → Exec β} :
    Safe (x >>= f) ↔ Safe x ∧ ∀ a, x = Except.ok a → Safe (f a) := by
  cases x with
  | error t => simp [safe_error]
  | ok a => simp

theorem safe_ite {c : Prop} [Decidable c] {x y : Exec α} :
    Safe (if c then x else y) ↔ (c → Safe x) ∧ (¬c → Safe y) := by
  split_ifs with h <;> simp [h]

/-- What both branches of a choice give when they return, the choice gives. -/
theorem ok_of_ite {c : Prop} [Decidable c] {x y : Exec α} {a : α} {Q : Prop}
    (h : (if c then x else y) = Except.ok a) (hx : c → x = Except.ok a → Q)
    (hy : ¬c → y = Except.ok a → Q) : Q := by
  by_cases hc : c
  · rw [if_pos hc] at h
    exact hx hc h
  · rw [if_neg hc] at h
    exact hy hc h

end Exec

/-! ## Unsigned arithmetic of a fixed width -/

/-- `a + b` in `w` bits. -/
def checkedAdd (w a b : ℕ) : Exec ℕ :=
  if a + b < 2 ^ w then .ok (a + b) else .error .overflow

/-- `a - b`, which has no negative results. -/
def checkedSub (a b : ℕ) : Exec ℕ :=
  if b ≤ a then .ok (a - b) else .error .overflow

/-- `a * b` in `w` bits. -/
def checkedMul (w a b : ℕ) : Exec ℕ :=
  if a * b < 2 ^ w then .ok (a * b) else .error .overflow

/-- `a / b`. -/
def checkedDiv (a b : ℕ) : Exec ℕ :=
  if b = 0 then .error .divByZero else .ok (a / b)

/-- `a % b`. -/
def checkedMod (a b : ℕ) : Exec ℕ :=
  if b = 0 then .error .divByZero else .ok (a % b)

/-- `a << k` in `w` bits. Only a shift by `w` or more stops, not a bit that is lost. -/
def checkedShl (w a k : ℕ) : Exec ℕ :=
  if k < w then .ok (a * 2 ^ k % 2 ^ w) else .error .overflow

/-- The bitwise complement of `a` in `w` bits. -/
def bitNot (w a : ℕ) : ℕ :=
  2 ^ w - 1 - a

/-- Stop unless `p` holds. -/
def assert (p : Prop) [Decidable p] : Exec Unit :=
  if p then .ok () else .error .assertion

theorem checkedAdd_eq_ok {w a b c : ℕ} : checkedAdd w a b = .ok c ↔ a + b < 2 ^ w ∧ c = a + b := by
  unfold checkedAdd
  split_ifs with h <;> simp [h, eq_comm]

theorem checkedSub_eq_ok {a b c : ℕ} : checkedSub a b = .ok c ↔ b ≤ a ∧ c = a - b := by
  unfold checkedSub
  split_ifs with h <;> simp [h, eq_comm]

theorem checkedMul_eq_ok {w a b c : ℕ} : checkedMul w a b = .ok c ↔ a * b < 2 ^ w ∧ c = a * b := by
  unfold checkedMul
  split_ifs with h <;> simp [h, eq_comm]

theorem checkedMod_eq_ok {a b c : ℕ} : checkedMod a b = .ok c ↔ b ≠ 0 ∧ c = a % b := by
  unfold checkedMod
  split_ifs with h <;> simp [h, eq_comm]

theorem checkedDiv_eq_ok {a b c : ℕ} : checkedDiv a b = .ok c ↔ b ≠ 0 ∧ c = a / b := by
  unfold checkedDiv
  split_ifs with h <;> simp [h, eq_comm]

theorem checkedShl_one_eq_ok {w k c : ℕ} : checkedShl w 1 k = .ok c ↔ k < w ∧ c = 2 ^ k := by
  unfold checkedShl
  split_ifs with h
  · have hlt : 2 ^ k < 2 ^ w := Nat.pow_lt_pow_right (by decide) h
    simp [h, Nat.mod_eq_of_lt hlt, eq_comm]
  · simp [h]

theorem assert_eq_ok {p : Prop} [Decidable p] {u : Unit} : assert p = .ok u ↔ p := by
  unfold assert
  split_ifs with h <;> simp [h]

/-- A sequence that starts with an assertion. -/
theorem assert_bind_eq_ok {α : Type} {p : Prop} [Decidable p] {f : Unit → Exec α} {a : α} :
    assert p >>= f = .ok a ↔ p ∧ f () = .ok a := by
  rw [Exec.bind_eq_ok]
  exact ⟨fun ⟨_, h, hf⟩ => ⟨assert_eq_ok.mp h, hf⟩, fun ⟨h, hf⟩ => ⟨(), assert_eq_ok.mpr h, hf⟩⟩

theorem checkedAdd_of_lt {w a b : ℕ} (h : a + b < 2 ^ w) : checkedAdd w a b = .ok (a + b) :=
  if_pos h

theorem checkedSub_of_le {a b : ℕ} (h : b ≤ a) : checkedSub a b = .ok (a - b) :=
  if_pos h

theorem checkedMul_of_lt {w a b : ℕ} (h : a * b < 2 ^ w) : checkedMul w a b = .ok (a * b) :=
  if_pos h

theorem assert_of {p : Prop} [Decidable p] (h : p) : assert p = .ok () :=
  if_pos h

theorem finishes_checkedAdd (w a b : ℕ) : (checkedAdd w a b).Finishes := by
  unfold checkedAdd
  split_ifs <;> exact fun hc => by cases hc

theorem finishes_checkedSub (a b : ℕ) : (checkedSub a b).Finishes := by
  unfold checkedSub
  split_ifs <;> exact fun hc => by cases hc

theorem finishes_checkedMul (w a b : ℕ) : (checkedMul w a b).Finishes := by
  unfold checkedMul
  split_ifs <;> exact fun hc => by cases hc

theorem finishes_checkedDiv (a b : ℕ) : (checkedDiv a b).Finishes := by
  unfold checkedDiv
  split_ifs <;> exact fun hc => by cases hc

theorem finishes_assert (p : Prop) [Decidable p] : (assert p).Finishes := by
  unfold assert
  split_ifs <;> exact fun hc => by cases hc

theorem halts_checkedAdd (w a b : ℕ) : (checkedAdd w a b).Halts :=
  Exec.halts_ite (Exec.halts_ok _) (Exec.halts_error (by decide) (by decide))

theorem halts_checkedSub (a b : ℕ) : (checkedSub a b).Halts :=
  Exec.halts_ite (Exec.halts_ok _) (Exec.halts_error (by decide) (by decide))

theorem halts_checkedMul (w a b : ℕ) : (checkedMul w a b).Halts :=
  Exec.halts_ite (Exec.halts_ok _) (Exec.halts_error (by decide) (by decide))

theorem halts_checkedMod (a b : ℕ) : (checkedMod a b).Halts :=
  Exec.halts_ite (Exec.halts_error (by decide) (by decide)) (Exec.halts_ok _)

theorem safe_checked {c : Prop} [Decidable c] {α : Type} {a : α} {t : Trap}
    (ht : ¬(t = .outOfFuel ∨ ∃ t', t = .callee t')) :
    Exec.Safe (if c then .ok a else .error t : Exec α) ↔ c := by
  split_ifs with h <;> simp [h, Exec.safe_error, ht]

@[simp] theorem safe_checkedAdd {w a b : ℕ} : (checkedAdd w a b).Safe ↔ a + b < 2 ^ w :=
  safe_checked (by simp)

@[simp] theorem safe_checkedSub {a b : ℕ} : (checkedSub a b).Safe ↔ b ≤ a :=
  safe_checked (by simp)

@[simp] theorem safe_checkedMul {w a b : ℕ} : (checkedMul w a b).Safe ↔ a * b < 2 ^ w :=
  safe_checked (by simp)

@[simp] theorem safe_checkedDiv {a b : ℕ} : (checkedDiv a b).Safe ↔ b ≠ 0 := by
  unfold checkedDiv
  split_ifs with h <;> simp [h, Exec.safe_error]

@[simp] theorem safe_checkedMod {a b : ℕ} : (checkedMod a b).Safe ↔ b ≠ 0 := by
  unfold checkedMod
  split_ifs with h <;> simp [h, Exec.safe_error]

section

variable {β : Type} {w a b : ℕ} {f : ℕ → Exec β}

/-- What follows a computation with one possible result. -/
theorem safe_bind_of_eq_ok {x : Exec ℕ} {c : Prop} {r : ℕ} (hx : x.Safe ↔ c)
    (hok : ∀ a, x = .ok a ↔ c ∧ a = r) : (x >>= f).Safe ↔ c ∧ (f r).Safe := by
  rw [Exec.safe_bind, hx]
  refine and_congr_right fun hc => ⟨fun h => h r ((hok r).mpr ⟨hc, rfl⟩), fun h a ha => ?_⟩
  rwa [((hok a).mp ha).2]

@[simp] theorem safe_checkedAdd_bind : (checkedAdd w a b >>= f).Safe ↔ a + b < 2 ^ w ∧ (f (a + b)).Safe :=
  safe_bind_of_eq_ok safe_checkedAdd fun _ => checkedAdd_eq_ok

@[simp] theorem safe_checkedSub_bind : (checkedSub a b >>= f).Safe ↔ b ≤ a ∧ (f (a - b)).Safe :=
  safe_bind_of_eq_ok safe_checkedSub fun _ => checkedSub_eq_ok

@[simp] theorem safe_checkedMul_bind : (checkedMul w a b >>= f).Safe ↔ a * b < 2 ^ w ∧ (f (a * b)).Safe :=
  safe_bind_of_eq_ok safe_checkedMul fun _ => checkedMul_eq_ok

@[simp] theorem safe_checkedMod_bind : (checkedMod a b >>= f).Safe ↔ b ≠ 0 ∧ (f (a % b)).Safe :=
  safe_bind_of_eq_ok safe_checkedMod fun _ => checkedMod_eq_ok

end

/-- Masking with the complement of `2 ^ k - 1` rounds down to a multiple of `2 ^ k`. -/
theorem land_bitNot_two_pow {w k x : ℕ} (hk : k ≤ w) (hx : x < 2 ^ w) :
    x &&& bitNot w (2 ^ k - 1) = x / 2 ^ k * 2 ^ k := by
  have hlt : 2 ^ k - 1 < 2 ^ w :=
    (Nat.sub_one_lt (by positivity)).trans_le (Nat.pow_le_pow_right (by decide) hk)
  have hnot : bitNot w (2 ^ k - 1) = 2 ^ w - (2 ^ k - 1 + 1) := by
    unfold bitNot
    omega
  apply Nat.eq_of_testBit_eq
  intro i
  rw [Nat.testBit_and, hnot, Nat.testBit_two_pow_sub_succ hlt, Nat.testBit_two_pow_sub_one,
    Nat.testBit_mul_two_pow, Nat.testBit_div_two_pow]
  by_cases hi : i < w
  · by_cases hki : k ≤ i
    · simp [hi, hki, not_lt.mpr hki]
    · simp [hki, not_le.mp hki]
  · have hxi : x.testBit i = false :=
      Nat.testBit_lt_two_pow (hx.trans_le (Nat.pow_le_pow_right (by decide) (not_lt.mp hi)))
    have hki : k ≤ i := hk.trans (not_lt.mp hi)
    simp [hxi, hki]

/-! ## Rounding -/

/-- The first multiple of `2 ^ o` at `s` or after it. -/
def roundUp (s o : ℕ) : ℕ :=
  (s + 2 ^ o - 1) / 2 ^ o * 2 ^ o

section

variable {s o a : ℕ}

theorem le_roundUp (s o : ℕ) : s ≤ roundUp s o := by
  have hpos := Nat.two_pow_pos o
  have hdiv := Nat.div_add_mod (s + 2 ^ o - 1) (2 ^ o)
  have hmod := Nat.mod_lt (s + 2 ^ o - 1) hpos
  rw [Nat.mul_comm] at hdiv
  unfold roundUp
  omega

theorem dvd_roundUp (s o : ℕ) : 2 ^ o ∣ roundUp s o :=
  Nat.dvd_mul_left _ _

/-- No multiple is in between. -/
theorem roundUp_le (hs : s ≤ a) (ha : 2 ^ o ∣ a) : roundUp s o ≤ a := by
  have hpos := Nat.two_pow_pos o
  obtain ⟨c, rfl⟩ := ha
  have hlt : (s + 2 ^ o - 1) / 2 ^ o < c + 1 := by
    rw [Nat.div_lt_iff_lt_mul hpos]
    calc s + 2 ^ o - 1 < 2 ^ o * c + 2 ^ o := by omega
      _ = (c + 1) * 2 ^ o := by ring
  calc (s + 2 ^ o - 1) / 2 ^ o * 2 ^ o ≤ c * 2 ^ o := Nat.mul_le_mul_right _ (by omega)
    _ = 2 ^ o * c := Nat.mul_comm _ _

/-- It is computed from the number before `s`. -/
theorem roundUp_eq (hs : s ≠ 0) : roundUp s o = (s - 1) / 2 ^ o * 2 ^ o + 2 ^ o := by
  have hpos := Nat.two_pow_pos o
  have hsum : s + 2 ^ o - 1 = s - 1 + 2 ^ o := by omega
  rw [roundUp, hsum, Nat.add_div_right _ hpos, Nat.succ_mul]

@[simp] theorem roundUp_zero_left (o : ℕ) : roundUp 0 o = 0 := by
  have hpos := Nat.two_pow_pos o
  rw [roundUp, Nat.div_eq_of_lt (by omega), Nat.zero_mul]

@[simp] theorem roundUp_zero_right (s : ℕ) : roundUp s 0 = s := by
  simp [roundUp]

/-- Rounding up commutes with a shift by a multiple. -/
theorem roundUp_add (s : ℕ) (ha : 2 ^ o ∣ a) : roundUp (s + a) o = roundUp s o + a := by
  obtain ⟨c, rfl⟩ := ha
  have hpos := Nat.two_pow_pos o
  have hsum : s + 2 ^ o * c + 2 ^ o - 1 = s + 2 ^ o - 1 + 2 ^ o * c := by omega
  rw [roundUp, roundUp, hsum, Nat.add_mul_div_left _ _ hpos, Nat.add_mul, Nat.mul_comm c]

end

/-! ## Loops -/

/-- What one iteration does : go round again, or leave the loop with a result. -/
inductive Iter (σ ρ : Type)
  | next (s : σ)
  | done (r : ρ)

section Loop

variable {σ ρ : Type} (body : σ → Exec (Iter σ ρ))

/-- Run `body` until it leaves, at most `n` times. -/
def loop : ℕ → σ → Exec ρ
  | 0, _ => .error .outOfFuel
  | n + 1, s =>
    match body s with
    | .error t => .error t
    | .ok (.done r) => .ok r
    | .ok (.next s') => loop n s'

/-- Every iteration of the loop from `s` starts in a state satisfying `C`. -/
def Throughout (C : σ → Prop) : ℕ → σ → Prop
  | 0, _ => True
  | n + 1, s => C s ∧ ∀ s', body s = .ok (.next s') → Throughout C n s'

variable {body}

theorem throughout_true : ∀ (n : ℕ) (s : σ), Throughout body (fun _ => True) n s
  | 0, _ => trivial
  | n + 1, _ => ⟨trivial, fun s' _ => throughout_true n s'⟩

/-- A loop that has returned : if each iteration that starts in `C` keeps `I` and leaves
with `Q`, then the loop leaves with `Q`. -/
theorem loop_ok {I C : σ → Prop} {Q : ρ → Prop}
    (hnext : ∀ s s', I s → C s → body s = .ok (.next s') → I s')
    (hdone : ∀ s r, I s → C s → body s = .ok (.done r) → Q r) :
    ∀ (n : ℕ) (s : σ) {r : ρ}, I s → Throughout body C n s → loop body n s = .ok r → Q r
  | 0, s, r, _, _, h => by simp [loop] at h
  | n + 1, s, r, hI, ⟨hC, hT⟩, h => by
    unfold loop at h
    cases hb : body s with
    | error t => simp [hb] at h
    | ok o =>
      cases o with
      | done r' =>
        simp only [hb, Except.ok.injEq] at h
        exact h ▸ hdone s r' hI hC hb
      | next s' =>
        simp only [hb] at h
        exact loop_ok hnext hdone n s' (hnext s s' hI hC hb) (hT s' hb) h

/-- A loop whose variant `μ` decreases returns, with more fuel than the variant. -/
theorem loop_returns {I : σ → Prop} {Q : ρ → Prop} (μ : σ → ℕ)
    (hstep : ∀ s, I s → (∃ r, body s = .ok (.done r) ∧ Q r) ∨
      ∃ s', body s = .ok (.next s') ∧ I s' ∧ μ s' < μ s) :
    ∀ (n : ℕ) (s : σ), I s → μ s < n → ∃ r, loop body n s = .ok r ∧ Q r
  | 0, s, _, hn => by omega
  | n + 1, s, hI, hn => by
    rcases hstep s hI with ⟨r, hb, hQ⟩ | ⟨s', hb, hI', hμ⟩
    · exact ⟨r, by simp [loop, hb], hQ⟩
    · obtain ⟨r, hr, hQ⟩ := loop_returns μ hstep n s' hI' (by omega)
      exact ⟨r, by simp [loop, hb, hr], hQ⟩

/-- A loop whose variant decreases ends, also if it ends with a trap. -/
theorem loop_finishes {I : σ → Prop} (μ : σ → ℕ) (hbody : ∀ s, I s → (body s).Finishes)
    (hstep : ∀ s s', I s → body s = .ok (.next s') → I s' ∧ μ s' < μ s) :
    ∀ (n : ℕ) (s : σ), I s → μ s < n → (loop body n s).Finishes
  | 0, s, _, hn => by omega
  | n + 1, s, hI, hn => by
    have hfin := hbody s hI
    unfold loop
    cases hb : body s with
    | error t =>
      rw [hb] at hfin
      exact fun hc => hfin (congrArg Except.error (Except.error.inj hc))
    | ok o =>
      cases o with
      | done r => exact Exec.finishes_ok r
      | next s' =>
        obtain ⟨hI', hμ⟩ := hstep s s' hI hb
        exact loop_finishes μ hbody hstep n s' hI' (by omega)

theorem loop_halts {I : σ → Prop} (μ : σ → ℕ) (hbody : ∀ s, I s → (body s).Halts)
    (hstep : ∀ s s', I s → body s = .ok (.next s') → I s' ∧ μ s' < μ s) :
    ∀ (n : ℕ) (s : σ), I s → μ s < n → (loop body n s).Halts
  | 0, s, _, hn => by omega
  | n + 1, s, hI, hn => by
    have hfin := hbody s hI
    unfold loop
    cases hb : body s with
    | error t =>
      rw [hb] at hfin
      exact fun t' ht => hfin t' (congrArg Except.error (Except.error.inj ht))
    | ok o =>
      cases o with
      | done r => exact Exec.halts_ok r
      | next s' =>
        obtain ⟨hI', hμ⟩ := hstep s s' hI hb
        exact loop_halts μ hbody hstep n s' hI' (by omega)

/-- A loop is safe if each iteration is, in the state it finds. -/
theorem safe_loop : ∀ (n : ℕ) (s : σ), (loop body n s).Safe ↔ Throughout body (fun s => (body s).Safe) n s
  | 0, s => by simp [loop, Throughout, Exec.safe_error]
  | n + 1, s => by
    unfold loop Throughout
    cases hb : body s with
    | error t => simp [Exec.safe_error]
    | ok o =>
      cases o with
      | done r => simp
      | next s' => simpa using safe_loop n s'

theorem Throughout.congr {C D : σ → Prop} (h : ∀ s, C s ↔ D s) (n : ℕ) (s : σ) :
    Throughout body C n s ↔ Throughout body D n s := by
  rw [show C = D from funext fun s => propext (h s)]

/-- A loop that goes on from every state of `I` does not end. -/
theorem loop_endless {I : σ → Prop} (hstep : ∀ s, I s → ∃ s', body s = .ok (.next s') ∧ I s') :
    ∀ (n : ℕ) (s : σ), I s → loop body n s = .error .outOfFuel
  | 0, s, _ => rfl
  | n + 1, s, hI => by
    obtain ⟨s', hb, hI'⟩ := hstep s hI
    simp only [loop, hb]
    exact loop_endless hstep n s' hI'

/-- A loop that does not end with `n` iterations has `n` of them, or one that traps in this way. -/
theorem loop_iterations {t : Trap} : ∀ (n : ℕ) (s : σ), loop body n s = .error t →
    (∃ f : ℕ → σ, f 0 = s ∧ ∀ k < n, body (f k) = .ok (.next (f (k + 1)))) ∨
      ∃ s', body s' = .error t
  | 0, s, _ => .inl ⟨fun _ => s, rfl, fun k hk => absurd hk (Nat.not_lt_zero k)⟩
  | n + 1, s, h => by
    unfold loop at h
    cases hb : body s with
    | error t' =>
      simp only [hb] at h
      cases h
      exact .inr ⟨s, hb⟩
    | ok o =>
      simp only [hb] at h
      cases o with
      | done r => cases h
      | next s' =>
        obtain ⟨f, hf, hsteps⟩ | htrap := loop_iterations n s' h
        · refine .inl ⟨fun k => Nat.casesOn k s f, rfl, fun k hk => ?_⟩
          cases k with
          | zero => exact hb.trans (by rw [← hf])
          | succ k => exact hsteps k (by omega)
        · exact .inr htrap

variable (body) in
/-- Some iterations of the loop lead from `s` to `s'`. -/
def Reaches : σ → σ → Prop :=
  Relation.ReflTransGen fun s s' => body s = .ok (.next s')

theorem Reaches.eq_of_done {s s' : σ} {r : ρ} (h : Reaches body s s') (hs : body s = .ok (.done r)) :
    s' = s := by
  obtain rfl | ⟨s₁, hnext, -⟩ := h.cases_head
  · rfl
  · cases hs.symm.trans hnext

theorem Reaches.eq_or_reaches {s s₁ s' : σ} (h : Reaches body s s') (hs : body s = .ok (.next s₁)) :
    s' = s ∨ Reaches body s₁ s' := by
  obtain rfl | ⟨s₂, hnext, hreached⟩ := h.cases_head
  · exact .inl rfl
  · cases hs.symm.trans hnext
    exact .inr hreached

theorem reaches_iterations {f : ℕ → σ} {n : ℕ} (h : ∀ k < n, body (f k) = .ok (.next (f (k + 1)))) :
    ∀ k ≤ n, Reaches body (f 0) (f k)
  | 0, _ => .refl
  | k + 1, hk => (reaches_iterations h k (by omega)).tail (h k (by omega))

/-- In a long run of iterations a bounded counter and a bounded key are both the same again. -/
theorem exists_repeat {c key : ℕ → ℕ} {a b n : ℕ} (hc : ∀ k ≤ n, c k < a) (hkey : ∀ k ≤ n, key k < b)
    (hn : a * b ≤ n) : ∃ i j, i < j ∧ j ≤ n ∧ c i = c j ∧ key i = key j := by
  have hcard : (Finset.range a ×ˢ Finset.range b).card < (Finset.range (n + 1)).card := by
    rw [Finset.card_product, Finset.card_range, Finset.card_range, Finset.card_range]
    omega
  obtain ⟨i, hi, j, hj, hne, heq⟩ := Finset.exists_ne_map_eq_of_card_lt_of_maps_to hcard
    (f := fun k => (c k, key k)) (fun k hk => by
      have hk := Nat.lt_succ_iff.mp (Finset.mem_range.mp hk)
      simpa using ⟨hc k hk, hkey k hk⟩)
  rw [Finset.mem_range] at hi hj
  obtain ⟨hcount, hkeys⟩ := Prod.ext_iff.mp heq
  obtain hlt | hlt := Nat.lt_or_gt_of_ne hne
  · exact ⟨i, j, hlt, by omega, hcount, hkeys⟩
  · exact ⟨j, i, hlt, by omega, hcount.symm, hkeys.symm⟩

/-- A loop goes on at a state that it reaches, if a variant bounds the iterations. -/
theorem loop_of_reaches (μ : σ → ℕ) (hstep : ∀ s s', body s = .ok (.next s') → μ s' < μ s)
    {s s' : σ} (h : Reaches body s s') : ∀ {n : ℕ}, μ s < n →
      ∃ m, μ s' < m ∧ loop body n s = loop body m s' := by
  induction h using Relation.ReflTransGen.head_induction_on with
  | refl => exact fun {n} hn => ⟨n, hn, rfl⟩
  | @head s s₁ hs _ ih =>
    intro n hn
    have hlt := hstep s s₁ hs
    obtain ⟨n, rfl⟩ := Nat.exists_eq_add_of_lt (Nat.zero_lt_of_lt hn)
    rw [Nat.zero_add] at hn ⊢
    obtain ⟨m, hm, heq⟩ := ih (n := n) (by omega)
    exact ⟨m, hm, by simp only [loop, hs, heq]⟩

/-- The first iteration leaves the loop. -/
theorem loop_done {n : ℕ} {s : σ} {r : ρ} (h : body s = .ok (.done r)) (hn : 0 < n) :
    loop body n s = .ok r := by
  obtain ⟨m, rfl⟩ := Nat.exists_eq_add_of_lt hn
  simp only [loop, h]

/-- The loop goes on behind its first iteration. -/
theorem loop_next {n : ℕ} {s s' : σ} (h : body s = .ok (.next s')) :
    loop body (n + 1) s = loop body n s' := by
  simp only [loop, h]

/-- A loop of two iterations. -/
theorem loop_next_done {n : ℕ} {s s' : σ} {r : ρ} (h : body s = .ok (.next s'))
    (h' : body s' = .ok (.done r)) (hn : 1 < n) : loop body n s = .ok r := by
  obtain ⟨m, rfl⟩ := Nat.exists_eq_add_of_lt hn
  rw [show 1 + m + 1 = (1 + m) + 1 from rfl, loop_next h]
  exact loop_done h' (by omega)

/-- The first iteration of a loop that has returned. -/
theorem loop_eq_ok {n : ℕ} {s : σ} {r : ρ} (h : loop body n s = .ok r) :
    body s = .ok (.done r) ∨
      ∃ s' m, n = m + 1 ∧ body s = .ok (.next s') ∧ loop body m s' = .ok r := by
  cases n with
  | zero => cases h
  | succ n =>
    unfold loop at h
    cases hb : body s with
    | error t =>
      rw [hb] at h
      cases h
    | ok o =>
      rw [hb] at h
      cases o with
      | done r' => exact .inl (by rw [Except.ok.inj h])
      | next s' => exact .inr ⟨s', n, rfl, rfl, h⟩

/-- A loop that has returned has come to the iteration that leaves it. -/
theorem exists_reaches_done {n : ℕ} {s : σ} {r : ρ} (h : loop body n s = .ok r) :
    ∃ s', Reaches body s s' ∧ body s' = .ok (.done r) := by
  induction n generalizing s with
  | zero => cases h
  | succ n ih =>
    obtain hdone | ⟨s₁, m, hm, hnext, hrest⟩ := loop_eq_ok h
    · exact ⟨s, .refl, hdone⟩
    · obtain rfl : n = m := by omega
      obtain ⟨s', hreach, hdone⟩ := ih hrest
      exact ⟨s', hreach.head hnext, hdone⟩

/-- A loop that returns does so from every state that it comes to. -/
theorem loop_ok_of_reaches {s s' : σ} {r : ρ} (hs : Reaches body s s') :
    ∀ {n : ℕ}, loop body n s = .ok r → ∃ m, loop body m s' = .ok r := by
  induction hs using Relation.ReflTransGen.head_induction_on with
  | refl => exact fun {n} h => ⟨n, h⟩
  | head hstep _ ih =>
    intro n h
    obtain hdone | ⟨s₁, m, -, hnext, h⟩ := loop_eq_ok h
    · cases hstep.symm.trans hdone
    · cases hstep.symm.trans hnext
      exact ih h

/-- Only the first iteration sees the state a loop starts in. -/
theorem loop_congr {s s' : σ} (h : body s = body s') (n : ℕ) : loop body n s = loop body n s' := by
  cases n with
  | zero => rfl
  | succ n => simp only [loop, h]

/-- A loop whose iterations are known one by one. -/
theorem loop_of_steps {r : ρ} (f : ℕ → σ) : ∀ (t k n : ℕ),
    (∀ i, k ≤ i → i < k + t → body (f i) = .ok (.next (f (i + 1)))) →
      body (f (k + t)) = .ok (.done r) → t < n → loop body n (f k) = .ok r
  | _, _, 0, _, _, hn => by omega
  | 0, k, n + 1, _, hdone, _ => by
    rw [Nat.add_zero] at hdone
    simp [loop, hdone]
  | t + 1, k, n + 1, hnext, hdone, hn => by
    simp only [loop, hnext k le_rfl (by omega)]
    refine loop_of_steps f t (k + 1) n (fun i hi hi' => hnext i (by omega) (by omega)) ?_ (by omega)
    rwa [show k + 1 + t = k + (t + 1) by omega]

/-- A loop traps only by running out of fuel, or in an iteration it has reached. -/
theorem loop_error {I C : σ → Prop} {P : Trap → Prop} (hfuel : P .outOfFuel)
    (hnext : ∀ s s', I s → C s → body s = .ok (.next s') → I s')
    (herr : ∀ s t, I s → C s → body s = .error t → P t) :
    ∀ (n : ℕ) (s : σ) {t : Trap}, I s → Throughout body C n s → loop body n s = .error t → P t
  | 0, s, t, _, _, h => by
    simp only [loop, Except.error.injEq] at h
    exact h ▸ hfuel
  | n + 1, s, t, hI, ⟨hC, hT⟩, h => by
    unfold loop at h
    cases hb : body s with
    | error t' =>
      simp only [hb, Except.error.injEq] at h
      exact h ▸ herr s t' hI hC hb
    | ok o =>
      cases o with
      | done r => simp [hb] at h
      | next s' =>
        simp only [hb] at h
        exact loop_error hfuel hnext herr n s' (hnext s s' hI hC hb) (hT s' hb) h

end Loop

end Machine
