import MiniVisor.FreeLists

/-!
# The order of the free lists

Each free list is in the order of the sizes of its entries. In the middle of a call this holds of
the sizes at which the entries were filed (`SizeSorted` takes the sizes as an argument).
`chain_entry_to_free_list` keeps the order of all other entries, and puts the entry in its place if
they are in order (`Refiled`); taking an entry out keeps the order of the rest. -/

namespace MiniVisor

open Machine

/-- The lists are in the order of `size`. -/
def SizeSorted (size : ℕ → ℕ) (B : ℕ → List ℕ) : Prop :=
  ∀ k, (B k).Pairwise fun i j => size i ≤ size j

/-- Only `x` has another place. If the lists were in order with its old size, they are with its new one. -/
structure Refiled (size : ℕ → ℕ) (old x : ℕ) (B B' : ℕ → List ℕ) : Prop where
  others : ∀ j, (B' j).filter (· ≠ x) = (B j).filter (· ≠ x)
  sorted : SizeSorted (Function.update size x old) B → SizeSorted size B'

section

variable {pl pl' : PoolLists} {B B' : ℕ → List ℕ} {A C : List ℕ} {x k : ℕ} {f g : ℕ → ℕ}

theorem SizeSorted.congr (h : SizeSorted f B) (hfg : ∀ k, ∀ i ∈ B k, f i = g i) : SizeSorted g B := by
  intro k
  refine (h k).imp_of_mem fun hi hj hle => ?_
  rw [← hfg k _ hi, ← hfg k _ hj]
  exact hle

/-- Lists with fewer entries. -/
theorem SizeSorted.sublist (h : SizeSorted f B) (hs : ∀ k, (B' k).Sublist (B k)) : SizeSorted f B' :=
  fun k => (h k).sublist (hs k)

/-- The pool and the heads determine the lists. -/
theorem FreeLists.eq (h : FreeLists pl B) (h' : FreeLists pl B') : B = B' := by
  funext k
  have hB := walk_of_linked poolSize (h.linked k) (h.length_le k)
  have hB' := walk_of_linked poolSize (h'.linked k) (h'.length_le k)
  rw [← h.head k] at hB
  rw [← h'.head k] at hB'
  exact hB.symm.trans hB'

theorem filter_ne_of_not_mem (h : x ∉ A) : A.filter (· ≠ x) = A :=
  List.filter_eq_self.mpr fun _ hi => decide_eq_true fun hc => h (hc ▸ hi)

theorem filter_ne_middle (h : x ∉ A ++ C) : (A ++ x :: C).filter (· ≠ x) = A ++ C := by
  rw [List.filter_append, List.filter_cons_of_neg (by simp), ← List.filter_append,
    filter_ne_of_not_mem h]

/-- An entry in front of the first one that is not smaller. -/
theorem pairwise_insert (h : (A ++ C).Pairwise fun i j => f i ≤ f j) (hA : ∀ i ∈ A, f i < f x)
    (hC : ∀ c ∈ C.head?, f x ≤ f c) : (A ++ x :: C).Pairwise fun i j => f i ≤ f j := by
  rw [List.pairwise_append] at h
  obtain ⟨hAA, hCC, hAC⟩ := h
  have hxC : ∀ c ∈ C, f x ≤ f c := by
    cases C with
    | nil => simp
    | cons c C =>
      have hxc := hC c rfl
      rintro c' hc'
      rcases List.mem_cons.mp hc' with rfl | hc'
      · exact hxc
      · exact hxc.trans ((List.pairwise_cons.mp hCC).1 c' hc')
  refine List.pairwise_append.mpr ⟨hAA, List.pairwise_cons.mpr ⟨hxC, hCC⟩, fun i hi j hj => ?_⟩
  rcases List.mem_cons.mp hj with rfl | hj
  · exact (hA i hi).le
  · exact hAC i hi j hj

/-- Inserting an entry that is in no list. -/
theorem insertIntoFreeList_order (h : FreeLists pl B) (hx : ∀ j, x ∉ B j)
    (hv : x < poolSize ∧ pl.1.id x = x) (he : insertIntoFreeList pl x k = .ok pl')
    (h' : FreeLists pl' B') :
    (∀ j, (B' j).filter (· ≠ x) = B j) ∧ (SizeSorted pl.1.size B → SizeSorted pl.1.size B') := by
  obtain ⟨A, C, hk, hp, hh, hA, hC⟩ := insertIntoFreeList_eq_ok h hx hv he
  have hB' : B' = Function.update B k (A ++ x :: C) := by
    have hinsert := h.insert hk hx hv hh
    rw [← hp] at hinsert
    exact h'.eq hinsert
  subst hB'
  constructor
  · intro j
    by_cases hj : j = k
    · subst hj
      rw [Function.update_self, hk]
      exact filter_ne_middle (hk ▸ hx j)
    · rw [Function.update_of_ne hj]
      exact filter_ne_of_not_mem (hx j)
  · intro hs j
    by_cases hj : j = k
    · subst hj
      rw [Function.update_self]
      exact pairwise_insert (hk ▸ hs j) hA hC
    · rw [Function.update_of_ne hj]
      exact hs j

theorem FreeLists.remove_eq (h : FreeLists pl B) (hk : B k = A ++ x :: C) (j : ℕ) :
    Function.update B k (A ++ C) j = (B j).filter (· ≠ x) := by
  by_cases hj : j = k
  · subst hj
    have hd : (A ++ x :: C).Nodup := hk ▸ h.nodup j
    rw [Function.update_self, hk]
    exact (filter_ne_middle (List.nodup_cons.mp (List.nodup_middle.mp hd)).1).symm
  · rw [Function.update_of_ne hj]
    exact (filter_ne_of_not_mem fun hi => hj (h.unique hi (by simp [hk]))).symm

theorem chainEntryToFreeList_order {oldSize : Option ℕ} (h : FreeLists pl B)
    (hv : x < poolSize ∧ pl.1.id x = x)
    (hold : ∀ j, x ∈ B j ↔ oldSize.map sizeToPageOrder = some j)
    (he : chainEntryToFreeList pl x oldSize = .ok pl') (h' : FreeLists pl' B') :
    Refiled pl.1.size (oldSize.getD (pl.1.size x)) x B B' := by
  cases oldSize with
  | none =>
    obtain ⟨s, -, he⟩ := Exec.bind_eq_ok.mp he
    have hx : ∀ j, x ∉ B j := fun j hj => by simpa using (hold j).mp hj
    obtain ⟨hothers, hsorted⟩ := insertIntoFreeList_order h hx hv he h'
    refine ⟨fun j => (hothers j).trans ?_, fun hs => hsorted ?_⟩
    · exact (filter_ne_of_not_mem (hx j)).symm
    · rwa [Option.getD_none, Function.update_eq_self] at hs
  | some old =>
    simp only [Option.map_some, Option.some.injEq] at hold
    obtain ⟨s, hs, he⟩ := Exec.bind_eq_ok.mp he
    obtain rfl := MemoryEntryPool.getSize_eq_ok hs
    rw [Option.getD_some]
    split_ifs at he with hsize
    · cases he
      obtain rfl := h.eq h'
      exact ⟨fun _ => rfl, fun hs => by rwa [hsize, Function.update_eq_self] at hs⟩
    · obtain ⟨A, C, hk⟩ := List.append_of_mem ((hold _).mpr rfl)
      obtain ⟨hfl, heq⟩ := h.remove hk
      have hsizes : (unchainFromOrder pl x (sizeToPageOrder old)).1.size = pl.1.size := by
        rw [heq]
        rfl
      obtain ⟨hothers, hsorted⟩ := insertIntoFreeList_order hfl (h.not_mem_remove hk)
        (by rw [heq]; exact hv) he h'
      rw [hsizes] at hsorted
      refine ⟨fun j => (hothers j).trans (h.remove_eq hk j), fun hs => hsorted ?_⟩
      refine (hs.sublist fun j => ?_).congr fun j i hi => ?_
      · rw [h.remove_eq hk j]
        exact List.filter_sublist
      · rw [Function.update_of_ne]
        rintro rfl
        exact h.not_mem_remove hk j hi

/-- Taking an entry out keeps the order of the others. -/
theorem unchainEntryFromFreeList_order (h : FreeLists pl B)
    (hx : ∀ j, x ∈ B j ↔ j = sizeToPageOrder (pl.1.size x))
    (he : unchainEntryFromFreeList pl x = .ok pl') (h' : FreeLists pl' B') (j : ℕ) :
    B' j = (B j).filter (· ≠ x) := by
  obtain ⟨s, hs, he⟩ := Exec.bind_eq_ok.mp he
  obtain rfl := MemoryEntryPool.getSize_eq_ok hs
  cases he
  obtain ⟨A, C, hk⟩ := List.append_of_mem ((hx _).mpr rfl)
  obtain ⟨hfl, -⟩ := h.remove hk
  rw [h'.eq hfl]
  exact h.remove_eq hk j

end

end MiniVisor
