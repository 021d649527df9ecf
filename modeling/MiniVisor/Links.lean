import MiniVisor.Checked
import Mathlib.Data.Set.Card
import Mathlib.Order.CompletePartialOrder
import Mathlib.Order.Interval.Finset.Nat

/-!
# Doubly linked lists and sorted intervals

Two structures that a pool allocator keeps at once, with nothing said about the pool.

`Linked next prev p l q` says that the nodes of `l`, in this order, are threaded by `next` and
`prev`, with `p` before the first node and `q` after the last. Writes to the links are described
by the new link functions : `Linked.insert` and `Linked.delete` say which values make a list one
node longer or shorter, whatever happened to the links of other nodes.

`Separated R` says that a list of closed intervals is sorted, disjoint and without neighbours
that touch, `covered R` is the set of its points and `total R` their number.
-/

namespace Machine

/-! ## Links -/

section Links

variable {α : Type} {next prev next' prev' : α → Option α} {p q p' q' : Option α}

/-- The nodes of `l` are threaded by `next` and `prev`, after `p` and before `q`. -/
def Linked (next prev : α → Option α) : Option α → List α → Option α → Prop
  | _, [], _ => True
  | p, i :: l, q => prev i = p ∧ next i = l.head?.or q ∧ Linked next prev (some i) l q

theorem linked_append : ∀ {A B : List α} {p : Option α},
    Linked next prev p (A ++ B) q ↔
      Linked next prev p A (B.head?.or q) ∧ Linked next prev (A.getLast?.or p) B q
  | [], B, p => by simp [Linked]
  | a :: A, B, p => by
    have hlast : A.getLast?.or (some a) = (a :: A).getLast?.or p := by
      cases h : A.getLast? <;> simp [List.getLast?_cons, h]
    simp only [List.cons_append, Linked, linked_append (A := A), List.head?_append, Option.or_assoc,
      hlast, and_assoc]

/-- The links of a node in the middle. -/
theorem Linked.node {A B : List α} {x : α} (h : Linked next prev p (A ++ x :: B) q) :
    prev x = A.getLast?.or p ∧ next x = B.head?.or q := by
  have := linked_append.mp h
  exact ⟨this.2.1, this.2.2.1⟩

/-- The nodes from a first one on, through `next`, at most `n` of them. -/
def walk (next : α → Option α) : ℕ → Option α → List α
  | n + 1, some i => i :: walk next n (next i)
  | _, _ => []

theorem walk_of_linked : ∀ {l : List α} {p : Option α} (n : ℕ), Linked next prev p l none →
    l.length ≤ n → walk next n l.head? = l
  | [], _, n, _, _ => by cases n <;> rfl
  | i :: l, _, 0, _, hn => by simp at hn
  | i :: l, _, n + 1, ⟨_, hnext, hl⟩, hn => by
    rw [Option.or_none] at hnext
    simp only [List.head?_cons, walk, hnext]
    rw [walk_of_linked n hl (by simpa using hn)]

/-- A loop that goes along the links ends : the list does. -/
theorem Linked.loop_finishes {ρ : Type} {f : α → Exec (Iter α ρ)} {l : List α}
    (h : Linked next prev p l none) (hbody : ∀ i ∈ l, (f i).Finishes)
    (hstep : ∀ i j, i ∈ l → f i = .ok (.next j) → next i = some j) :
    ∀ (B A : List α) (i : α) (n : ℕ), l = A ++ i :: B → B.length < n → (loop f n i).Finishes
  | _, _, _, 0, _, hn => by omega
  | B, A, i, n + 1, hl, hn => by
    have hi : i ∈ l := by simp [hl]
    have hfin := hbody i hi
    unfold loop
    cases hf : f i with
    | error t =>
      rw [hf] at hfin
      exact fun hc => hfin (congrArg Except.error (Except.error.inj hc))
    | ok o =>
      cases o with
      | done r => exact Exec.finishes_ok r
      | next j =>
        have hj := hstep i j hi hf
        have hl' : Linked next prev p (A ++ i :: B) none := hl ▸ h
        rw [hl'.node.2, Option.or_none] at hj
        obtain ⟨B, rfl⟩ := List.head?_eq_some_iff.mp hj
        exact h.loop_finishes hbody hstep B (A ++ [i]) j n (by simp [hl])
          (by simpa using hn)

variable [DecidableEq α]

/-- New links for a list whose inner links stay : its first node gets a new predecessor and its
last one a new successor. -/
theorem Linked.retarget : ∀ {l : List α} {p p' : Option α}, Linked next prev p l q → l.Nodup →
    (∀ i ∈ l, next' i = if l.getLast? = some i then q' else next i) →
    (∀ i ∈ l, prev' i = if l.head? = some i then p' else prev i) → Linked next' prev' p' l q'
  | [], _, _, _, _, _, _ => trivial
  | i :: l, p, p', ⟨_, hn, h⟩, hd, hn', hp' => by
    obtain ⟨hi, hl⟩ := List.nodup_cons.mp hd
    refine ⟨by simpa using hp' i (by simp), ?_, h.retarget hl ?_ ?_⟩
    · rw [hn' i (by simp)]
      cases l with
      | nil => simp
      | cons j l =>
        have hne : (i :: j :: l).getLast? ≠ some i := by
          rw [List.getLast?_cons_cons]
          exact fun hc => hi (List.mem_of_getLast? hc)
        rw [if_neg hne]
        simpa using hn
    · intro k hk
      rw [hn' k (List.mem_cons_of_mem _ hk)]
      cases l with
      | nil => simp at hk
      | cons j l => rw [List.getLast?_cons_cons]
    · intro k hk
      have hne : i ≠ k := fun hc => hi (hc ▸ hk)
      rw [hp' k (List.mem_cons_of_mem _ hk)]
      cases l with
      | nil => simp at hk
      | cons j l =>
        by_cases hj : j = k
        · subst hj
          simpa [hne] using h.1
        · simp [hne, hj]

/-- Links that agree on the nodes thread the same list. -/
theorem Linked.congr {l : List α} (h : Linked next prev p l q) (hd : l.Nodup)
    (hn : ∀ i ∈ l, next' i = next i) (hp : ∀ i ∈ l, prev' i = prev i) :
    Linked next' prev' p l q := by
  refine h.retarget hd (fun i hi => ?_) fun i hi => ?_
  · rw [hn i hi]
    split_ifs with hc
    · obtain ⟨A, rfl⟩ := List.getLast?_eq_some_iff.mp hc
      simpa using h.node.2
    · rfl
  · rw [hp i hi]
    split_ifs with hc
    · obtain ⟨B, rfl⟩ := List.head?_eq_some_iff.mp hc
      exact h.1
    · rfl

/-- Which links put `x` between `A` and `B`. -/
theorem Linked.insert {A B : List α} {x : α} (h : Linked next prev p (A ++ B) q)
    (hd : (A ++ x :: B).Nodup)
    (hn : ∀ i ∈ A ++ x :: B, next' i =
      if i = x then B.head?.or q else if A.getLast? = some i then some x else next i)
    (hp : ∀ i ∈ A ++ x :: B, prev' i =
      if i = x then A.getLast?.or p else if B.head? = some i then some x else prev i) :
    Linked next' prev' p (A ++ x :: B) q := by
  obtain ⟨hA, hB⟩ := linked_append.mp h
  obtain ⟨hdA, hdxB, hAB⟩ := List.nodup_append.mp hd
  obtain ⟨hxB, hdB⟩ := List.nodup_cons.mp hdxB
  have hxA : ∀ i ∈ A, i ≠ x := fun i hi => hAB i hi x (by simp)
  refine linked_append.mpr ⟨hA.retarget hdA ?_ ?_, ?_, ?_, hB.retarget hdB ?_ ?_⟩
  · intro i hi
    rw [hn i (by simp [hi])]
    simp [hxA i hi]
  · intro i hi
    have hne : B.head? ≠ some i := fun hc =>
      hAB i hi i (List.mem_cons_of_mem _ (List.mem_of_head? hc)) rfl
    rw [hp i (by simp [hi]), if_neg (hxA i hi), if_neg hne]
    split_ifs with h3
    · obtain ⟨C, rfl⟩ := List.head?_eq_some_iff.mp h3
      exact hA.1
    · rfl
  · simpa using hp x (by simp)
  · simpa using hn x (by simp)
  · intro i hi
    have hne : A.getLast? ≠ some i := fun hc =>
      hAB i (List.mem_of_getLast? hc) i (List.mem_cons_of_mem _ hi) rfl
    have hix : i ≠ x := fun hc => hxB (hc ▸ hi)
    rw [hn i (by simp [hi]), if_neg hix, if_neg hne]
    split_ifs with h3
    · obtain ⟨C, rfl⟩ := List.getLast?_eq_some_iff.mp h3
      simpa using hB.node.2
    · rfl
  · intro i hi
    have hix : i ≠ x := fun hc => hxB (hc ▸ hi)
    rw [hp i (by simp [hi])]
    simp [hix]

/-- Which links take `x` out from between `A` and `B`. -/
theorem Linked.delete {A B : List α} {x : α} (h : Linked next prev p (A ++ x :: B) q)
    (hd : (A ++ x :: B).Nodup)
    (hn : ∀ i ∈ A ++ B, next' i = if A.getLast? = some i then B.head?.or q else next i)
    (hp : ∀ i ∈ A ++ B, prev' i = if B.head? = some i then A.getLast?.or p else prev i) :
    Linked next' prev' p (A ++ B) q := by
  obtain ⟨hA, -, -, hB⟩ := linked_append.mp h
  obtain ⟨hdA, hdxB, hAB⟩ := List.nodup_append.mp hd
  obtain ⟨hxB, hdB⟩ := List.nodup_cons.mp hdxB
  refine linked_append.mpr ⟨hA.retarget hdA ?_ ?_, hB.retarget hdB ?_ ?_⟩
  · exact fun i hi => hn i (by simp [hi])
  · intro i hi
    have hne : B.head? ≠ some i := fun hc =>
      hAB i hi i (List.mem_cons_of_mem _ (List.mem_of_head? hc)) rfl
    rw [hp i (by simp [hi]), if_neg hne]
    split_ifs with h3
    · obtain ⟨C, rfl⟩ := List.head?_eq_some_iff.mp h3
      exact hA.1
    · rfl
  · intro i hi
    have hne : A.getLast? ≠ some i := fun hc =>
      hAB i (List.mem_of_getLast? hc) i (List.mem_cons_of_mem _ hi) rfl
    rw [hn i (by simp [hi]), if_neg hne]
    split_ifs with h3
    · obtain ⟨C, rfl⟩ := List.getLast?_eq_some_iff.mp h3
      simpa using hB.node.2
    · rfl
  · exact fun i hi => hp i (by simp [hi])

end Links

/-! ## Intervals -/

/-- Sorted, nonempty, and with a gap between neighbours. -/
def Separated (R : List (ℕ × ℕ)) : Prop :=
  (∀ r ∈ R, r.1 ≤ r.2) ∧ R.Pairwise fun r s => r.2 + 1 < s.1

/-- The points of the intervals. -/
def covered (R : List (ℕ × ℕ)) : Set ℕ :=
  {b | ∃ r ∈ R, r.1 ≤ b ∧ b ≤ r.2}

/-- How many points the intervals have. -/
def total (R : List (ℕ × ℕ)) : ℕ :=
  (R.map fun r => r.2 - r.1 + 1).sum

section Intervals

variable {A B X Y : List (ℕ × ℕ)} {r : ℕ × ℕ} {b : ℕ}

@[simp] theorem mem_covered_nil : b ∈ covered [] ↔ False := by
  simp [covered]

@[simp] theorem mem_covered_cons : b ∈ covered (r :: A) ↔ (r.1 ≤ b ∧ b ≤ r.2) ∨ b ∈ covered A := by
  simp [covered]

@[simp] theorem mem_covered_append : b ∈ covered (A ++ B) ↔ b ∈ covered A ∨ b ∈ covered B := by
  simp [covered, or_and_right, exists_or]

@[simp] theorem total_cons : total (r :: A) = r.2 - r.1 + 1 + total A := by
  simp [total]

@[simp] theorem total_append : total (A ++ B) = total A + total B := by
  simp [total]

theorem separated_append : Separated (A ++ B) ↔
    Separated A ∧ Separated B ∧ ∀ r ∈ A, ∀ s ∈ B, r.2 + 1 < s.1 := by
  simp only [Separated, List.pairwise_append, List.mem_append]
  constructor
  · rintro ⟨hr, hA, hB, hAB⟩
    exact ⟨⟨fun r h => hr r (.inl h), hA⟩, ⟨fun r h => hr r (.inr h), hB⟩, hAB⟩
  · rintro ⟨⟨hrA, hA⟩, ⟨hrB, hB⟩, hAB⟩
    exact ⟨fun r h => h.elim (hrA r) (hrB r), hA, hB, hAB⟩

theorem separated_cons : Separated (r :: A) ↔
    r.1 ≤ r.2 ∧ Separated A ∧ ∀ s ∈ A, r.2 + 1 < s.1 := by
  simp only [Separated, List.pairwise_cons, List.forall_mem_cons]
  exact ⟨fun ⟨⟨h1, h2⟩, h3, h4⟩ => ⟨h1, ⟨h2, h4⟩, h3⟩, fun ⟨h1, ⟨h2, h4⟩, h3⟩ => ⟨⟨h1, h2⟩, h3, h4⟩⟩

/-- Put other intervals in the place of `X`, inside the gap around it. -/
theorem Separated.replace (h : Separated (A ++ X ++ B)) (hY : Separated Y)
    (hA : ∀ r ∈ A, ∀ s ∈ Y, r.2 + 1 < s.1) (hB : ∀ r ∈ Y, ∀ s ∈ B, r.2 + 1 < s.1) :
    Separated (A ++ Y ++ B) := by
  obtain ⟨hAX, hsB, hAXB⟩ := separated_append.mp h
  obtain ⟨hsA, -, -⟩ := separated_append.mp hAX
  refine separated_append.mpr ⟨separated_append.mpr ⟨hsA, hY, hA⟩, hsB, fun r hr s hs => ?_⟩
  rcases List.mem_append.mp hr with hr | hr
  · exact hAXB r (List.mem_append_left _ hr) s hs
  · exact hB r hr s hs

/-- The interval `r` shares no point with the others. -/
theorem Separated.not_mem (h : Separated (A ++ r :: B)) (hb : r.1 ≤ b ∧ b ≤ r.2) :
    b ∉ covered A ∧ b ∉ covered B := by
  obtain ⟨hA, hrB, hAr⟩ := separated_append.mp h
  obtain ⟨-, hB, hr⟩ := separated_cons.mp hrB
  constructor
  · rintro ⟨s, hs, hsb⟩
    have := hAr s hs r (by simp)
    omega
  · rintro ⟨s, hs, hsb⟩
    have := hr s hs
    omega

/-- Take points of one interval away. -/
theorem Separated.covered_diff (h : Separated (A ++ r :: B)) {D : Set ℕ}
    (hD : ∀ b ∈ D, r.1 ≤ b ∧ b ≤ r.2)
    (hY : ∀ b, b ∈ covered Y ↔ (r.1 ≤ b ∧ b ≤ r.2) ∧ b ∉ D) :
    covered (A ++ Y ++ B) = covered (A ++ r :: B) \ D := by
  ext b
  have hAB : b ∈ D → b ∉ covered A ∧ b ∉ covered B := fun hb => h.not_mem (hD b hb)
  simp only [mem_covered_append, mem_covered_cons, hY, Set.mem_sdiff]
  tauto

/-- Add points in the place of `X`. -/
theorem covered_union {D : Set ℕ} (hY : ∀ b, b ∈ covered Y ↔ b ∈ covered X ∨ b ∈ D) :
    covered (A ++ Y ++ B) = covered (A ++ X ++ B) ∪ D := by
  ext b
  simp only [mem_covered_append, hY, Set.mem_union]
  tauto

theorem covered_cons (r : ℕ × ℕ) (A : List (ℕ × ℕ)) :
    covered (r :: A) = Set.Icc r.1 r.2 ∪ covered A := by
  ext b
  simp only [mem_covered_cons, Set.mem_union, Set.mem_Icc]

theorem covered_nil : covered [] = ∅ :=
  Set.eq_empty_of_forall_notMem fun b hb => by simp at hb

theorem finite_covered : ∀ R : List (ℕ × ℕ), (covered R).Finite
  | [] => by simp [covered_nil]
  | r :: R => by
    rw [covered_cons]
    exact (Set.finite_Icc _ _).union (finite_covered R)

/-- `total` counts the points. -/
theorem Separated.ncard_covered : ∀ {R : List (ℕ × ℕ)}, Separated R → (covered R).ncard = total R
  | [], _ => by simp [covered_nil, total]
  | r :: R, h => by
    obtain ⟨hr, hR, hgap⟩ := separated_cons.mp h
    have hdisj : Disjoint (Set.Icc r.1 r.2) (covered R) := by
      refine Set.disjoint_left.mpr fun b hb hb' => ?_
      obtain ⟨s, hs, hsb⟩ := hb'
      have := hgap s hs
      have := (Set.mem_Icc.mp hb).2
      omega
    have hcard : (Set.Icc r.1 r.2).ncard = r.2 - r.1 + 1 := by
      rw [← Finset.coe_Icc, Set.ncard_coe_finset, Nat.card_Icc]
      omega
    rw [covered_cons, Set.ncard_union_eq hdisj (Set.finite_Icc _ _) (finite_covered R), hcard,
      hR.ncard_covered, total_cons]

/-- The first interval ends before the first gap. -/
theorem Separated.head_le {R R' : List (ℕ × ℕ)} {r r' : ℕ × ℕ} (h : Separated (r :: R))
    (h' : Separated (r' :: R')) (hc : covered (r :: R) = covered (r' :: R')) :
    r'.1 ≤ r.1 ∧ (r.1 = r'.1 → r'.2 ≤ r.2) := by
  obtain ⟨hr, -, hgap⟩ := separated_cons.mp h
  obtain ⟨hr', -, hgap'⟩ := separated_cons.mp h'
  constructor
  · have hmem : r.1 ∈ covered (r' :: R') := hc ▸ ⟨r, by simp, le_rfl, hr⟩
    rcases mem_covered_cons.mp hmem with hb | ⟨s, hs, hb⟩
    · exact hb.1
    · have := hgap' s hs
      omega
  · intro heq
    by_contra hlt
    have hmem : r.2 + 1 ∈ covered (r :: R) := hc ▸ ⟨r', by simp, by omega, by omega⟩
    rcases mem_covered_cons.mp hmem with hb | ⟨s, hs, hb⟩
    · omega
    · have := hgap s hs
      omega

/-- Separated intervals are determined by their points. -/
theorem Separated.eq_of_covered_eq : ∀ {R R' : List (ℕ × ℕ)}, Separated R → Separated R' →
    covered R = covered R' → R = R'
  | [], [], _, _, _ => rfl
  | [], r' :: R', _, h', hc => by
    have hmem : r'.1 ∈ covered [] := hc ▸ ⟨r', by simp, le_rfl, (separated_cons.mp h').1⟩
    simp at hmem
  | r :: R, [], h, _, hc => by
    have hmem : r.1 ∈ covered [] := hc ▸ ⟨r, by simp, le_rfl, (separated_cons.mp h).1⟩
    simp at hmem
  | r :: R, r' :: R', h, h', hc => by
    have h1 := h.head_le h' hc
    have h2 := h'.head_le h hc.symm
    have hfst : r.1 = r'.1 := le_antisymm h2.1 h1.1
    obtain rfl : r = r' := Prod.ext hfst (le_antisymm (h2.2 hfst.symm) (h1.2 hfst))
    have hrest : covered R = covered R' := by
      have hnot : ∀ {S : List (ℕ × ℕ)}, Separated (r :: S) →
          covered S = covered (r :: S) \ Set.Icc r.1 r.2 := by
        intro S hS
        ext b
        have := Separated.not_mem (A := []) (b := b) hS
        simp only [mem_covered_cons, Set.mem_sdiff, Set.mem_Icc]
        tauto
      rw [hnot h, hnot h', hc]
    rw [Separated.eq_of_covered_eq (separated_cons.mp h).2.1 (separated_cons.mp h').2.1 hrest]

end Intervals

end Machine
