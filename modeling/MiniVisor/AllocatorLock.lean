import MiniVisor.Lock
import MiniVisor.AllocatorRefinement

/-!
# The allocator under its lock

`MEMORY_ALLOCATOR` is one mutex among others. The CPUs call `allocate` and `free` through it, in any
order and with any steps of theirs in between. `BlockCall` is one such call, with the blocks in use;
a block is freed by who got it. As sections are atomic, the allocator is that of a run of single
calls whenever its mutex is free, and no two blocks that any CPUs have got overlap
(`lockRun_blocks`). -/

namespace MiniVisor

open Machine Relation

/-- One call of `allocate`, or of `free` for a block in use. -/
inductive BlockCall : MemoryAllocator × List (ℕ × ℕ) → MemoryAllocator × List (ℕ × ℕ) → Prop
  | free {m m' : MemoryAllocator} {live : List (ℕ × ℕ)} {r : MemoryResult Unit} (start size : ℕ)
      (hlive : (start, size) ∈ live) (hsize : 2 ≤ size) (htop : start + size < 2 ^ 64)
      (he : m.free start size = .ok (r, m')) :
      BlockCall (m, live) (m', blocksAfterFree live start size r)
  | allocate {m m' : MemoryAllocator} {live : List (ℕ × ℕ)} {r : MemoryResult ℕ} (size alignOrder : ℕ)
      (he : m.allocate size alignOrder = .ok (r, m')) :
      BlockCall (m, live) (m', blocksAfterUse live (fun a => (a, size)) r)

/-- The data of the mutexes. `none` is `MEMORY_ALLOCATOR`, whose data also has the blocks in use. -/
abbrev SharedData {κ : Type} (τ : κ → Type) : Option κ → Type
  | none => MemoryAllocator × List (ℕ × ℕ)
  | some k => τ k

section

variable {κ : Type} {τ : κ → Type} {P : Sections (Option κ) (SharedData τ)} [DecidableEq κ]
  {v t : (k : Option κ) → SharedData τ k} {x y : MemoryAllocator × List (ℕ × ℕ)}

theorem BlockCall.allocatorRun (h : BlockCall x y) (hx : AllocatorRun x.1 x.2) :
    AllocatorRun y.1 y.2 := by
  cases h with
  | free start size hlive hsize htop he =>
    exact hx.free start size hsize htop ((allocatorRun_invariant hx).2.2 _ hlive) he
  | allocate size alignOrder he => exact hx.allocate size alignOrder he

theorem AllocatorRun.calls (hx : AllocatorRun x.1 x.2) (h : ReflTransGen BlockCall x y) :
    AllocatorRun y.1 y.2 := by
  induction h with
  | refl => exact hx
  | tail _ hcall ih => exact hcall.allocatorRun ih

/-- The sections of the code on the allocator, run alone, do what some calls do. -/
def CallsAllocator (P : Sections (Option κ) (SharedData τ)) : Prop :=
  ∀ l l' (x y : MemoryAllocator × List (ℕ × ℕ)), P.Start none l →
    ReflTransGen (P.Access none) (l, x) (l', y) → P.Done none l' → ReflTransGen BlockCall x y

theorem atomicRun_allocatorRun (hv : AllocatorRun (v none).1 (v none).2) (hP : CallsAllocator P)
    (h : (atomicSystem P v).Reachable t) : AllocatorRun (t none).1 (t none).2 := by
  refine h.induction (P := fun t => AllocatorRun (t none).1 (t none).2) (fun t ht => ?_) ?_
  · obtain rfl : t = v := ht
    exact hv
  · rintro t _ - ih ⟨k, l, l', w, hl, hrun, hl', rfl⟩
    cases k with
    | none =>
      rw [Function.update_self]
      exact ih.calls (hP l l' (t none) w hl hrun hl')
    | some k =>
      rw [Function.update_of_ne (Option.some_ne_none k).symm]
      exact ih

variable {ι : Type} [DecidableEq ι] {base : ι → BitVec 64} {s : LockState ι P}

/-- Whatever the CPUs do in between : while the mutex is free the chain of the allocator is in
order, and the blocks in use are disjoint from each other and from the free bytes. -/
theorem lockRun_blocks (hv : AllocatorRun (v none).1 (v none).2) (hP : CallsAllocator P)
    (h : (lockSystem P base v).Reachable s) (hfree : s.mutexes.lock none = false) :
    (s.mutexes.data none).1.Chained ∧
      BlocksApart (s.mutexes.data none).1.freeBytes (s.mutexes.data none).2 := by
  obtain ⟨t, ht, hatomic⟩ := lock_simulation.reachable h
  obtain ⟨hvalid, hapart⟩ := allocatorRun_invariant (atomicRun_allocatorRun hv hP ht)
  rw [hatomic.free none hfree]
  exact ⟨hvalid.chained, hapart⟩

end

/-- Sections of one call. -/
def callSections : Sections (Option Empty) (SharedData Empty.elim) where
  Local := Bool
  Calls ks _ := ks = []
  Start _ l := l = false
  Access
    | none, x, y => x.1 = false ∧ y.1 = true ∧ BlockCall x.2 y.2
  Done _ l := l = true

theorem callsAllocator_callSections : CallsAllocator callSections := by
  intro l l' x y hl hrun hl'
  have hone : ∀ p : Bool × MemoryAllocator × List (ℕ × ℕ),
      ReflTransGen (callSections.Access none) (l, x) p → p = (l, x) ∨ p.1 = true ∧ BlockCall x p.2 := by
    intro p hp
    induction hp with
    | refl => exact .inl rfl
    | tail _ hpq ih =>
      obtain ⟨hq, htrue, hcall⟩ := hpq
      obtain rfl | ⟨hq', -⟩ := ih
      · exact .inr ⟨htrue, hcall⟩
      · rw [hq] at hq'
        cases hq'
  obtain heq | ⟨-, hcall⟩ := hone _ hrun
  · obtain rfl : l = l' := (Prod.mk.inj heq).1.symm
    exact absurd (hl.symm.trans hl') Bool.false_ne_true
  · exact .single hcall

/-- An allocator none of whose blocks is in use. -/
def unusedData (m : MemoryAllocator) : (k : Option Empty) → SharedData Empty.elim k
  | none => (m, [])

/-- One of two CPUs gets a page. -/
theorem lockRun_blocks_page :
    ∃ m : MemoryAllocator, m.Chained ∧ BlocksApart m.freeBytes [(0x1000, 0x1000)] := by
  obtain ⟨m, m', hv, he⟩ : ∃ m m' : MemoryAllocator, AllocatorRun m [] ∧
      m.allocate 0x1000 12 = .ok (.ok 0x1000, m') :=
    ⟨_, _, AllocatorRun.free (m := .new) 0x1000 0x3000 .new (by decide) (by decide)
      (by simp [Inv.new.freeBytes_eq, covered]) rfl, rfl⟩
  have h₀ : (lockSystem callSections (fun _ : Bool => 0#64) (unusedData m)).Reachable
      ⟨⟨fun _ => false, unusedData m⟩, fun _ => ⟨0#64, ⟨.outside, []⟩, []⟩⟩ := .init ⟨rfl, rfl⟩
  obtain ⟨s, h, hm, hcpu, -⟩ := lockRun_takes (c := true) (k := none) h₀ rfl rfl rfl
    (show callSections.Start none false from rfl)
  have h₁ := lockRun_code h hcpu (.access [] ⟨rfl, rfl, .allocate 0x1000 12 he⟩)
    ⟨congrFun (congrArg Mutexes.data hm) none, rfl⟩
  have h₂ := lockRun_code h₁ (Function.update_self ..) (.store rfl) rfl
  exact ⟨m', lockRun_blocks (v := unusedData m) hv callsAllocator_callSections h₂ rfl⟩

end MiniVisor
