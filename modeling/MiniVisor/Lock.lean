import MiniVisor.Transition
import Mathlib.Data.List.Nodup
import Mathlib.Data.BitVec
import Mathlib.Order.WellFounded
import Mathlib.Tactic.Common

/-!
# The spin lock

`lock.rs` protects all that the CPUs share. `lock` spins until it has set the flag of the mutex by
an atomic exchange, with interrupts disabled from just before the exchange on, and the `drop` of the
guard clears the flag and restores `DAIF`. `LockCpu.Step` is one instruction of a CPU that runs such
code, an interrupt, or the return from one; the CPUs interleave in any order. The guards of a
context are dropped newest first, as Rust drops the values of nested scopes.

What the code does while it holds a mutex is a parameter, `Sections` : any number of accesses to the
data, whose intermediate states mean nothing to others. Seen from the outside each section is one
atomic change (`lockRun_atomic`). A CPU that holds a mutex takes no interrupt (`lockRun_masked`), so
no handler ever waits for the code it has interrupted, and mutexes that are nested in one order do
not deadlock (`lockRun_moves`). -/

namespace MiniVisor

open Machine Relation

/-! ## The code -/

/-- The IRQ and FIQ bits that `get_daif_and_disable_irq_fiq` sets. -/
def daifIrqFiq : BitVec 64 := (1#64 <<< 7) ||| (1#64 <<< 6)

/-- `DAIF` after `get_daif_and_disable_irq_fiq`. -/
def disableIrqFiq (daif : BitVec 64) : BitVec 64 :=
  daif ||| daifIrqFiq

/-- `DAIF` at the entry of an exception handler. -/
def exceptionDaif (daif : BitVec 64) : BitVec 64 :=
  daif ||| (0b1111#64 <<< 6)

/-- IRQs are disabled. -/
def isIrqMasked (daif : BitVec 64) : Bool :=
  daif.getLsbD 7

/-- The code that uses mutexes `κ` with data `σ` : the mutexes it takes while it holds others, the state
of its own in which it enters a section, its accesses to the data, and where a section may end. -/
structure Sections (κ : Type) (σ : κ → Type) where
  Local : Type
  Calls : List κ → κ → Prop
  Start : κ → Local → Prop
  Access : (k : κ) → Local × σ k → Local × σ k → Prop
  Done : κ → Local → Prop

/-- The mutexes. -/
structure Mutexes (κ : Type) (σ : κ → Type) where
  lock : κ → Bool
  data : (k : κ) → σ k

section

variable {κ : Type} {σ : κ → Type}

/-- A `MutexGuard`, with the state of the code in its section. -/
structure MutexGuard (P : Sections κ σ) where
  mutex : κ
  daif : BitVec 64
  state : P.Local

/-- Where the code is in `lock` or `drop`. -/
inductive LockPc (κ : Type)
  | outside
  /-- Before `load`. -/
  | load (k : κ)
  /-- Before `get_daif_and_disable_irq_fiq`. -/
  | disable (k : κ)
  /-- Before `compare_exchange`, with `daif`. -/
  | exchange (k : κ) (daif : BitVec 64)
  /-- Before `set_daif` in the loop. -/
  | restore (k : κ) (daif : BitVec 64)
  /-- Before `set_daif` in `drop`. -/
  | dropped (daif : BitVec 64)

/-- Code that is running or interrupted, with its guards, newest first. -/
structure LockContext (P : Sections κ σ) where
  pc : LockPc κ
  guards : List (MutexGuard P)

/-- A CPU, with what it has interrupted and the `DAIF` to return to. -/
structure LockCpu (P : Sections κ σ) where
  daif : BitVec 64
  current : LockContext P
  interrupted : List (LockContext P × BitVec 64)

/-- What a step does with the mutexes. -/
inductive LockEffect (κ : Type) (σ : κ → Type)
  | none
  | test (k : κ) (locked : Bool)
  | acquire (k : κ)
  | access (k : κ) (v w : σ k)
  | release (k : κ)

def LockEffect.Apply [DecidableEq κ] (m m' : Mutexes κ σ) : LockEffect κ σ → Prop
  | none => m' = m
  | test k locked => m.lock k = locked ∧ m' = m
  | acquire k => m.lock k = false ∧ m' = { m with lock := Function.update m.lock k true }
  | access k v w => m.data k = v ∧ m' = { m with data := Function.update m.data k w }
  | release k => m' = { m with lock := Function.update m.lock k false }

variable {P : Sections κ σ}

/-- One step of code, with `DAIF`. -/
inductive LockContext.Step : LockEffect κ σ → BitVec 64 × LockContext P → BitVec 64 × LockContext P → Prop
  /-- `lock` is called. -/
  | call {d gs} {k : κ} (h : P.Calls (gs.map MutexGuard.mutex) k) :
      Step .none (d, ⟨.outside, gs⟩) (d, ⟨.load k, gs⟩)
  | spin {d gs} {k : κ} : Step (.test k true) (d, ⟨.load k, gs⟩) (d, ⟨.load k, gs⟩)
  | loaded {d gs} {k : κ} : Step (.test k false) (d, ⟨.load k, gs⟩) (d, ⟨.disable k, gs⟩)
  | disable {d gs} {k : κ} : Step .none (d, ⟨.disable k, gs⟩) (disableIrqFiq d, ⟨.exchange k d, gs⟩)
  | acquired {d gs daif l} {k : κ} (h : P.Start k l) :
      Step (.acquire k) (d, ⟨.exchange k daif, gs⟩) (d, ⟨.outside, ⟨k, daif, l⟩ :: gs⟩)
  | failed {d gs daif} {k : κ} :
      Step (.test k true) (d, ⟨.exchange k daif, gs⟩) (d, ⟨.restore k daif, gs⟩)
  | restore {d gs daif} {k : κ} : Step .none (d, ⟨.restore k daif, gs⟩) (daif, ⟨.load k, gs⟩)
  /-- An access through one of the guards. -/
  | access (gs) {d gs' daif l l'} {k : κ} {v w : σ k} (h : P.Access k (l, v) (l', w)) :
      Step (.access k v w) (d, ⟨.outside, gs ++ ⟨k, daif, l⟩ :: gs'⟩)
        (d, ⟨.outside, gs ++ ⟨k, daif, l'⟩ :: gs'⟩)
  /-- The `store` of `drop`. -/
  | store {d gs daif l} {k : κ} (h : P.Done k l) :
      Step (.release k) (d, ⟨.outside, ⟨k, daif, l⟩ :: gs⟩) (d, ⟨.dropped daif, gs⟩)
  | setDaif {d gs daif} : Step .none (d, ⟨.dropped daif, gs⟩) (daif, ⟨.outside, gs⟩)

/-- One step of a CPU : of the code, or an interrupt, or the return from one. -/
inductive LockCpu.Step : LockEffect κ σ → LockCpu P → LockCpu P → Prop
  | code {e d ctx d' ctx' fs} (h : LockContext.Step e (d, ctx) (d', ctx')) :
      Step e ⟨d, ctx, fs⟩ ⟨d', ctx', fs⟩
  | interrupt {d ctx fs} (h : isIrqMasked d = false) :
      Step .none ⟨d, ctx, fs⟩ ⟨exceptionDaif d, ⟨.outside, []⟩, (ctx, d) :: fs⟩
  | eret {d ctx fs daif} : Step .none ⟨d, ⟨.outside, []⟩, (ctx, daif) :: fs⟩ ⟨daif, ctx, fs⟩

/-- The mutexes and the CPUs `ι`. -/
structure LockState (ι : Type) (P : Sections κ σ) where
  mutexes : Mutexes κ σ
  cpu : ι → LockCpu P

/-- All CPUs together, from the data `v` and the values `base` of `DAIF` on. -/
def lockSystem {ι : Type} [DecidableEq ι] [DecidableEq κ] (P : Sections κ σ) (base : ι → BitVec 64)
    (v : (k : κ) → σ k) : System (LockState ι P) where
  Init s := s.mutexes = ⟨fun _ => false, v⟩ ∧ s.cpu = fun c => ⟨base c, ⟨.outside, []⟩, []⟩
  Step s s' := ∃ c e cpu, (s.cpu c).Step e cpu ∧ e.Apply s.mutexes s'.mutexes ∧
    s'.cpu = Function.update s.cpu c cpu

/-- The data alone, which a section changes in one step. -/
def atomicSystem [DecidableEq κ] (P : Sections κ σ) (v : (k : κ) → σ k) : System ((k : κ) → σ k) where
  Init t := t = v
  Step t t' := ∃ k l l' w, P.Start k l ∧ ReflTransGen (P.Access k) (l, t k) (l', w) ∧ P.Done k l' ∧
    t' = Function.update t k w

/-! ## Guards -/

/-- All guards on a CPU, also those of interrupted code. -/
def LockCpu.guards (cpu : LockCpu P) : List (MutexGuard P) :=
  cpu.current.guards ++ cpu.interrupted.flatMap fun f => f.1.guards

/-- The mutexes that a CPU holds. -/
def LockCpu.held (cpu : LockCpu P) : List κ :=
  cpu.guards.map MutexGuard.mutex

/-- What a step does with the guards. -/
theorem LockCpu.Step.guards {e : LockEffect κ σ} {cpu cpu' : LockCpu P} (h : cpu.Step e cpu') :
    match e with
    | .acquire k => ∃ daif l, P.Start k l ∧ cpu'.guards = ⟨k, daif, l⟩ :: cpu.guards
    | .release k => ∃ daif l, P.Done k l ∧ cpu.guards = ⟨k, daif, l⟩ :: cpu'.guards
    | .access k v w => ∃ gs gs' daif l l', P.Access k (l, v) (l', w) ∧
        cpu.guards = gs ++ ⟨k, daif, l⟩ :: gs' ∧ cpu'.guards = gs ++ ⟨k, daif, l'⟩ :: gs'
    | _ => cpu'.guards = cpu.guards := by
  cases h with
  | code h =>
    cases h with
    | acquired h => exact ⟨_, _, h, rfl⟩
    | store h => exact ⟨_, _, h, rfl⟩
    | access _ h => exact ⟨_, _, _, _, _, h, List.append_assoc .., List.append_assoc ..⟩
    | _ => rfl
  | _ => rfl

/-- The flag of a mutex is set exactly if one guard is on it. -/
structure Exclusive {ι : Type} (m : Mutexes κ σ) (held : ι → List κ) : Prop where
  nodup : ∀ c, (held c).Nodup
  unique : ∀ c c' k, k ∈ held c → k ∈ held c' → c = c'
  locked : ∀ k, m.lock k = true ↔ ∃ c, k ∈ held c

namespace Exclusive

variable {ι : Type} {m : Mutexes κ σ} {held : ι → List κ} {c : ι} {k : κ}

/-- Only the flags matter. -/
theorem of_data {data : (k : κ) → σ k} (h : Exclusive m held) : Exclusive ⟨m.lock, data⟩ held :=
  ⟨h.nodup, h.unique, h.locked⟩

variable [DecidableEq ι] [DecidableEq κ]

theorem acquire (h : Exclusive m held) (hk : m.lock k = false) :
    Exclusive { m with lock := Function.update m.lock k true } (Function.update held c (k :: held c)) := by
  have hfree : ∀ c', k ∉ held c' := fun c' hc => by
    rw [(h.locked k).mpr ⟨c', hc⟩] at hk
    cases hk
  have hmem : ∀ c' j, j ∈ Function.update held c (k :: held c) c' ↔ c' = c ∧ j = k ∨ j ∈ held c' := by
    intro c' j
    by_cases hc : c' = c
    · subst hc
      simp
    · simp [hc]
  refine ⟨fun c' => ?_, fun c₁ c₂ j h₁ h₂ => ?_, fun j => ?_⟩
  · by_cases hc : c' = c
    · subst hc
      rw [Function.update_self, List.nodup_cons]
      exact ⟨hfree c', h.nodup c'⟩
    · rw [Function.update_of_ne hc]
      exact h.nodup c'
  · rw [hmem] at h₁ h₂
    obtain ⟨rfl, rfl⟩ | h₁ := h₁
    · exact (h₂.resolve_right (hfree c₂)).1.symm
    · obtain ⟨rfl, rfl⟩ | h₂ := h₂
      · exact absurd h₁ (hfree c₁)
      · exact h.unique c₁ c₂ j h₁ h₂
  · dsimp only
    by_cases hj : j = k
    · subst hj
      rw [Function.update_self]
      exact iff_of_true rfl ⟨c, (hmem c j).mpr (.inl ⟨rfl, rfl⟩)⟩
    · rw [Function.update_of_ne hj, h.locked j]
      exact exists_congr fun c' => by simp [hmem, hj]

theorem release {ks : List κ} (h : Exclusive m held) (hk : held c = k :: ks) :
    Exclusive { m with lock := Function.update m.lock k false } (Function.update held c ks) := by
  have hnodup := h.nodup c
  rw [hk, List.nodup_cons] at hnodup
  have hmem : ∀ c' j, j ∈ Function.update held c ks c' ↔ j ∈ held c' ∧ j ≠ k := by
    intro c' j
    by_cases hc : c' = c
    · subst hc
      rw [Function.update_self, hk, List.mem_cons]
      constructor
      · intro hj
        exact ⟨.inr hj, fun hjk => hnodup.1 (hjk ▸ hj)⟩
      · rintro ⟨hj, hjk⟩
        exact hj.resolve_left hjk
    · rw [Function.update_of_ne hc]
      refine (and_iff_left_of_imp fun hj hjk => hc ?_).symm
      exact h.unique c' c k (hjk ▸ hj) (hk ▸ List.mem_cons_self)
  refine ⟨fun c' => ?_, fun c₁ c₂ j h₁ h₂ => ?_, fun j => ?_⟩
  · by_cases hc : c' = c
    · subst hc
      rw [Function.update_self]
      exact hnodup.2
    · rw [Function.update_of_ne hc]
      exact h.nodup c'
  · exact h.unique c₁ c₂ j ((hmem _ _).mp h₁).1 ((hmem _ _).mp h₂).1
  · dsimp only
    by_cases hj : j = k
    · subst hj
      rw [Function.update_self]
      exact iff_of_false Bool.false_ne_true fun ⟨c', hc⟩ => ((hmem c' j).mp hc).2 rfl
    · rw [Function.update_of_ne hj, h.locked j]
      exact exists_congr fun c' => by simp [hmem, hj]

end Exclusive

/-! ## Sections are atomic -/

/-- A section that found the data `t` has come to the data of the mutex, on its own. -/
def MutexGuard.Ran (g : MutexGuard P) (t data : (k : κ) → σ k) : Prop :=
  ∃ l, P.Start g.mutex l ∧ ReflTransGen (P.Access g.mutex) (l, t g.mutex) (g.state, data g.mutex)

/-- Free mutexes have the data `t`, and the sections have started with it. -/
structure Atomic {ι : Type} (m : Mutexes κ σ) (guards : ι → List (MutexGuard P)) (t : (k : κ) → σ k) :
    Prop where
  free : ∀ k, m.lock k = false → m.data k = t k
  ran : ∀ c, ∀ g ∈ guards c, g.Ran t m.data

theorem mem_update {ι α : Type} [DecidableEq ι] {f : ι → List α} {c c' : ι} {l : List α} {x : α}
    (hx : x ∈ Function.update f c l c') : c' = c ∧ x ∈ l ∨ c' ≠ c ∧ x ∈ f c' := by
  by_cases hc : c' = c
  · subst hc
    rw [Function.update_self] at hx
    exact .inl ⟨rfl, hx⟩
  · rw [Function.update_of_ne hc] at hx
    exact .inr ⟨hc, hx⟩

section Guards

variable [DecidableEq κ] {g : MutexGuard P} {t data : (k : κ) → σ k} {k : κ} {w : σ k}

theorem MutexGuard.Ran.update_data (h : g.Ran t data) (hk : g.mutex ≠ k) :
    g.Ran t (Function.update data k w) := by
  obtain ⟨l, hl, hrun⟩ := h
  exact ⟨l, hl, by rwa [Function.update_of_ne hk]⟩

theorem MutexGuard.Ran.update_found (h : g.Ran t data) (hk : g.mutex ≠ k) :
    g.Ran (Function.update t k w) data := by
  obtain ⟨l, hl, hrun⟩ := h
  exact ⟨l, hl, by rwa [Function.update_of_ne hk]⟩

variable {ι : Type} {m : Mutexes κ σ} {guards : ι → List (MutexGuard P)} {c : ι}
  {gs gs' : List (MutexGuard P)} {daif : BitVec 64} {l l' : P.Local}

/-- The mutexes of the guards. -/
def mutexesOf (guards : ι → List (MutexGuard P)) (c : ι) : List κ :=
  (guards c).map MutexGuard.mutex

/-- A guard on the mutex of another one is that guard. -/
theorem Exclusive.side (hex : Exclusive m (mutexesOf guards)) (hg : guards c = gs ++ ⟨k, daif, l⟩ :: gs')
    {c' : ι} (hmem : g ∈ guards c') : g.mutex ≠ k ∨ c' = c ∧ g = ⟨k, daif, l⟩ := by
  by_cases hk : g.mutex = k
  · have hheld : k ∈ mutexesOf guards c := List.mem_map_of_mem (f := MutexGuard.mutex)
      (show (⟨k, daif, l⟩ : MutexGuard P) ∈ guards c by simp [hg])
    obtain rfl := hex.unique c' c k (hk ▸ List.mem_map_of_mem hmem) hheld
    refine .inr ⟨rfl, List.inj_on_of_nodup_map (hex.nodup c') hmem (by simp [hg]) hk⟩
  · exact .inl hk

variable [DecidableEq ι]

theorem Atomic.acquire (h : Atomic m guards t) (hk : m.lock k = false) (hl : P.Start k l) :
    Atomic { m with lock := Function.update m.lock k true }
      (Function.update guards c (⟨k, daif, l⟩ :: guards c)) t := by
  refine ⟨fun j hj => ?_, fun c' g hg => ?_⟩
  · dsimp only at hj ⊢
    by_cases hjk : j = k
    · exact hjk ▸ h.free k hk
    · exact h.free j (by rwa [Function.update_of_ne hjk] at hj)
  · obtain ⟨rfl, hmem⟩ | ⟨-, hmem⟩ := mem_update hg
    · obtain rfl | hmem := List.mem_cons.mp hmem
      · exact ⟨l, hl, by rw [h.free k hk]⟩
      · exact h.ran c' g hmem
    · exact h.ran c' g hmem

theorem Atomic.access (h : Atomic m guards t) (hex : Exclusive m (mutexesOf guards))
    (hg : guards c = gs ++ ⟨k, daif, l⟩ :: gs') (ha : P.Access k (l, m.data k) (l', w)) :
    Atomic { m with data := Function.update m.data k w }
      (Function.update guards c (gs ++ ⟨k, daif, l'⟩ :: gs')) t := by
  have hthis : (⟨k, daif, l⟩ : MutexGuard P) ∈ guards c := by simp [hg]
  have hnodup := hex.nodup c
  simp only [mutexesOf, hg, List.map_append, List.map_cons] at hnodup
  have hside : ∀ g, g ∈ gs ∨ g ∈ gs' → g ∈ guards c ∧ g.mutex ≠ k := by
    intro g hmem
    refine ⟨?_, ?_⟩
    · rw [hg, List.mem_append, List.mem_cons]
      exact hmem.imp_right .inr
    · rintro rfl
      obtain hmem | hmem := hmem
      · exact (List.nodup_append.mp hnodup).2.2 _ (List.mem_map_of_mem hmem) _ List.mem_cons_self rfl
      · exact (List.nodup_cons.mp (List.nodup_append.mp hnodup).2.1).1 (List.mem_map_of_mem hmem)
  refine ⟨fun j hj => ?_, fun c' g hgu => ?_⟩
  · dsimp only at hj ⊢
    rw [Function.update_of_ne]
    · exact h.free j hj
    · rintro rfl
      rw [(hex.locked j).mpr ⟨c, List.mem_map_of_mem hthis⟩] at hj
      cases hj
  · obtain ⟨rfl, hmem⟩ | ⟨hne, hmem⟩ := mem_update hgu
    · obtain hmem | hmem := List.mem_append.mp hmem
      · exact (h.ran c' g (hside g (.inl hmem)).1).update_data (hside g (.inl hmem)).2
      obtain rfl | hmem := List.mem_cons.mp hmem
      · obtain ⟨l₀, hl₀, hrun⟩ := h.ran c' _ hthis
        refine ⟨l₀, hl₀, ?_⟩
        dsimp only at hrun ⊢
        rw [Function.update_self]
        exact hrun.tail ha
      · exact (h.ran c' g (hside g (.inr hmem)).1).update_data (hside g (.inr hmem)).2
    · exact (h.ran c' g hmem).update_data ((hex.side hg hmem).resolve_right fun hc => hne hc.1)

theorem Atomic.release (h : Atomic m guards t) (hex : Exclusive m (mutexesOf guards))
    (hg : guards c = ⟨k, daif, l⟩ :: gs) :
    Atomic { m with lock := Function.update m.lock k false } (Function.update guards c gs)
      (Function.update t k (m.data k)) := by
  have hnodup := hex.nodup c
  simp only [mutexesOf, hg, List.map_cons, List.nodup_cons] at hnodup
  refine ⟨fun j hj => ?_, fun c' g hgu => ?_⟩
  · dsimp only at hj ⊢
    by_cases hjk : j = k
    · subst hjk
      rw [Function.update_self]
    · rw [Function.update_of_ne hjk] at hj ⊢
      exact h.free j hj
  · obtain ⟨rfl, hmem⟩ | ⟨hne, hmem⟩ := mem_update hgu
    · refine (h.ran c' g (hg ▸ List.mem_cons_of_mem _ hmem)).update_found ?_
      rintro rfl
      exact hnodup.1 (List.mem_map_of_mem hmem)
    · have hfirst : guards c = [] ++ ⟨k, daif, l⟩ :: gs := hg
      exact (h.ran c' g hmem).update_found ((hex.side hfirst hmem).resolve_right fun hc => hne hc.1)

end Guards

/-! ## Interrupts -/

theorem isIrqMasked_disableIrqFiq (d : BitVec 64) : isIrqMasked (disableIrqFiq d) = true := by
  simp [isIrqMasked, disableIrqFiq, daifIrqFiq]

theorem isIrqMasked_exceptionDaif (d : BitVec 64) : isIrqMasked (exceptionDaif d) = true := by
  simp [isIrqMasked, exceptionDaif]

/-- `DAIF` is `d`, and would be `settled` without what `lock` or `drop` has begun. -/
def LockPc.Settled (d settled : BitVec 64) : LockPc κ → Prop
  | exchange _ daif => settled = daif ∧ d = disableIrqFiq daif
  | restore _ daif => settled = daif ∧ d = disableIrqFiq daif
  | dropped daif => settled = daif ∧ d = disableIrqFiq daif
  | _ => settled = d

/-- Each guard keeps the value of `DAIF` that it has found, from `base` on. -/
def SavedFrom (base : BitVec 64) : List (BitVec 64) → BitVec 64 → Prop
  | [], d => d = base
  | daif :: daifs, d => d = disableIrqFiq daif ∧ SavedFrom base daifs daif

/-- Code that began with `base` has `DAIF` in order. -/
def LockContext.Masks (base d : BitVec 64) (ctx : LockContext P) : Prop :=
  ∃ settled, ctx.pc.Settled d settled ∧ SavedFrom base (ctx.guards.map MutexGuard.daif) settled

theorem LockContext.Step.masks {e : LockEffect κ σ} {base : BitVec 64} {x x' : BitVec 64 × LockContext P}
    (h : Step e x x') (hx : x.2.Masks base x.1) : x'.2.Masks base x'.1 := by
  obtain ⟨settled, hs, hsaved⟩ := hx
  cases h with
  | call | spin | loaded => exact ⟨settled, hs, hsaved⟩
  | @disable d gs k => exact ⟨d, ⟨rfl, rfl⟩, (show settled = d from hs) ▸ hsaved⟩
  | failed => exact ⟨settled, hs, hsaved⟩
  | restore => exact ⟨_, rfl, hs.1 ▸ hsaved⟩
  | acquired => exact ⟨_, rfl, hs.2, hs.1 ▸ hsaved⟩
  | access =>
    refine ⟨settled, hs, ?_⟩
    simp only [List.map_append, List.map_cons] at hsaved ⊢
    exact hsaved
  | store =>
    obtain ⟨hd, hsaved⟩ := hsaved
    exact ⟨_, ⟨rfl, (show settled = _ from hs) ▸ hd⟩, hsaved⟩
  | setDaif => exact ⟨_, rfl, hs.1 ▸ hsaved⟩

theorem LockPc.Settled.isIrqMasked {d settled : BitVec 64} {pc : LockPc κ} (h : pc.Settled d settled)
    (hs : isIrqMasked settled = true) : isIrqMasked d = true := by
  cases pc with
  | exchange | restore | dropped => exact h.2 ▸ isIrqMasked_disableIrqFiq _
  | _ => exact (show settled = d from h) ▸ hs

/-- Code with a guard runs with IRQs disabled. -/
theorem LockContext.Masks.isIrqMasked {base d : BitVec 64} {ctx : LockContext P} (h : ctx.Masks base d)
    (hg : ctx.guards ≠ []) : isIrqMasked d = true := by
  obtain ⟨settled, hs, hsaved⟩ := h
  obtain ⟨g, gs, heq⟩ := List.exists_cons_of_ne_nil hg
  rw [heq] at hsaved
  exact hs.isIrqMasked (hsaved.1 ▸ isIrqMasked_disableIrqFiq _)

/-- So does the handler of an interrupt. -/
theorem LockContext.Masks.isIrqMasked_of_base {base d : BitVec 64} {ctx : LockContext P}
    (h : ctx.Masks base d) (hb : MiniVisor.isIrqMasked base = true) : MiniVisor.isIrqMasked d = true := by
  by_cases hg : ctx.guards = []
  · obtain ⟨settled, hs, hsaved⟩ := h
    rw [hg] at hsaved
    exact hs.isIrqMasked ((show settled = base from hsaved) ▸ hb)
  · exact h.isIrqMasked hg

/-- The CPU runs code that began with `base`, or the handler of an interrupt that found no guard. -/
def LockCpu.Masks (base : BitVec 64) (cpu : LockCpu P) : Prop :=
  (cpu.interrupted = [] ∧ cpu.current.Masks base cpu.daif) ∨
    ∃ ctx d, cpu.interrupted = [(ctx, d)] ∧ ctx.guards = [] ∧ ctx.Masks base d ∧
      cpu.current.Masks (exceptionDaif d) cpu.daif

/-- Code that was interrupted has no guard. -/
theorem LockCpu.Masks.interrupted {base : BitVec 64} {cpu : LockCpu P} (h : cpu.Masks base) :
    ∀ f ∈ cpu.interrupted, f.1.guards = [] := by
  obtain ⟨hnil, -⟩ | ⟨ctx, d, hone, hg, -, -⟩ := h
  · simp [hnil]
  · simpa [hone] using hg

theorem LockCpu.Step.masks {e : LockEffect κ σ} {base : BitVec 64} {cpu cpu' : LockCpu P}
    (h : cpu.Step e cpu') (hcpu : cpu.Masks base) : cpu'.Masks base := by
  cases h with
  | code h =>
    obtain ⟨hnil, hm⟩ | ⟨ctx, d, hone, hg, hm, hcur⟩ := hcpu
    · exact .inl ⟨hnil, h.masks hm⟩
    · exact .inr ⟨ctx, d, hone, hg, hm, h.masks hcur⟩
  | @interrupt d ctx fs hirq =>
    obtain ⟨hnil, hm⟩ | ⟨ctx', d', -, -, -, hcur⟩ := hcpu
    · refine .inr ⟨ctx, d, by rw [show fs = [] from hnil], ?_, hm, ⟨_, rfl, rfl⟩⟩
      by_contra hg
      rw [hm.isIrqMasked hg] at hirq
      cases hirq
    · rw [hcur.isIrqMasked_of_base (isIrqMasked_exceptionDaif d')] at hirq
      cases hirq
  | @eret d ctx fs daif =>
    obtain ⟨hnil, -⟩ | ⟨ctx', d', hone, -, hm, -⟩ := hcpu
    · cases hnil
    · obtain ⟨hctx, rfl⟩ := List.cons.inj hone
      obtain ⟨rfl, rfl⟩ := Prod.mk.inj hctx
      exact .inl ⟨rfl, hm⟩

/-! ## Nesting -/

/-- The mutex that `lock` is busy with. -/
def LockPc.target : LockPc κ → Option κ
  | load k => some k
  | disable k => some k
  | exchange k _ => some k
  | restore k _ => some k
  | _ => none

/-- What code waits for is what it takes while it holds its mutexes. -/
def LockContext.Called (ctx : LockContext P) : Prop :=
  ∀ k, ctx.pc.target = some k → P.Calls (ctx.guards.map MutexGuard.mutex) k

theorem LockContext.Step.called {e : LockEffect κ σ} {x x' : BitVec 64 × LockContext P}
    (h : Step e x x') (hx : x.2.Called) : x'.2.Called := by
  cases h with
  | call h =>
    intro k hk
    obtain rfl := Option.some.inj hk
    exact h
  | spin | loaded | disable | failed | restore => exact hx
  | _ =>
    intro k hk
    cases hk

def LockCpu.Called (cpu : LockCpu P) : Prop :=
  cpu.current.Called ∧ ∀ f ∈ cpu.interrupted, f.1.Called

theorem LockCpu.Step.called {e : LockEffect κ σ} {cpu cpu' : LockCpu P} (h : cpu.Step e cpu')
    (hcpu : cpu.Called) : cpu'.Called := by
  obtain ⟨hcur, hint⟩ := hcpu
  cases h with
  | code h => exact ⟨h.called hcur, hint⟩
  | interrupt =>
    refine ⟨fun k hk => (by cases hk), fun f hf => ?_⟩
    obtain rfl | hf := List.mem_cons.mp hf
    · exact hcur
    · exact hint f hf
  | eret => exact ⟨hint _ List.mem_cons_self, fun f hf => hint f (List.mem_cons_of_mem _ hf)⟩

/-- A CPU waits for a mutex that is taken. -/
def LockState.Blocked {ι : Type} (s : LockState ι P) (c : ι) : Prop :=
  ∃ k, (s.cpu c).current.pc.target = some k ∧ s.mutexes.lock k = true

/-! ## Runs -/

section Runs

variable {ι : Type} [DecidableEq ι] [DecidableEq κ] {base : ι → BitVec 64} {v : (k : κ) → σ k}
  {s s' : LockState ι P}

/-- In all runs at most one CPU holds a mutex, and once. -/
theorem lockRun_exclusive (h : (lockSystem P base v).Reachable s) :
    Exclusive s.mutexes fun c => (s.cpu c).held := by
  refine h.induction (P := fun s : LockState ι P => Exclusive s.mutexes fun c => (s.cpu c).held)
    (fun s hs => ?_) ?_
  · obtain ⟨hm, hcpu⟩ := hs
    rw [hm, hcpu]
    exact ⟨fun c => List.nodup_nil, fun c c' k hc => absurd hc List.not_mem_nil,
      fun k => iff_of_false Bool.false_ne_true fun ⟨c, hc⟩ => absurd hc List.not_mem_nil⟩
  · rintro s s' - ih ⟨c, e, cpu, hstep, happly, hcpu⟩
    have hheld : (fun c' => (s'.cpu c').held) =
        Function.update (fun c' => (s.cpu c').held) c cpu.held := by
      rw [hcpu]
      funext c'
      exact Function.apply_update (fun _ cpu => LockCpu.held cpu) s.cpu c cpu c'
    have hguards := hstep.guards
    rw [hheld]
    have hsame : cpu.held = (s.cpu c).held → Exclusive s.mutexes
        (Function.update (fun c' => (s.cpu c').held) c cpu.held) := by
      intro heq
      rw [heq, Function.update_eq_self c fun c' => (s.cpu c').held]
      exact ih
    cases e with
    | none =>
      rw [show s'.mutexes = s.mutexes from happly]
      exact hsame (congrArg (List.map MutexGuard.mutex) hguards)
    | test k locked =>
      rw [happly.2]
      exact hsame (congrArg (List.map MutexGuard.mutex) hguards)
    | acquire k =>
      obtain ⟨daif, l, -, hg⟩ := hguards
      rw [happly.2, show cpu.held = k :: (s.cpu c).held from congrArg (List.map MutexGuard.mutex) hg]
      exact ih.acquire happly.1
    | access k v w =>
      obtain ⟨gs, gs', daif, l, l', -, hg, hg'⟩ := hguards
      rw [happly.2]
      refine (hsame ?_).of_data
      rw [LockCpu.held, LockCpu.held, hg, hg']
      simp
    | release k =>
      obtain ⟨daif, l, -, hg⟩ := hguards
      rw [show s'.mutexes = _ from happly]
      exact ih.release (congrArg (List.map MutexGuard.mutex) hg)

/-- The guards of all CPUs. -/
def LockState.guards (s : LockState ι P) (c : ι) : List (MutexGuard P) :=
  (s.cpu c).guards

/-- The sections of all CPUs are atomic changes of the data, in the order of their ends. -/
theorem lock_simulation : Simulation (lockSystem P base v) (atomicSystem P v)
    fun s t => Atomic s.mutexes s.guards t := by
  refine ⟨fun s hs => ⟨v, rfl, ?_⟩, ?_⟩
  · obtain ⟨hm, hcpu⟩ := hs
    refine ⟨fun k _ => by rw [hm], fun c g hg => ?_⟩
    rw [LockState.guards, hcpu] at hg
    cases hg
  · rintro s s' t hreach - h ⟨c, e, cpu, hstep, happly, hcpu⟩
    have hex : Exclusive s.mutexes (mutexesOf s.guards) := lockRun_exclusive hreach
    have hguards : s'.guards = Function.update s.guards c cpu.guards := by
      funext c'
      rw [LockState.guards, hcpu]
      exact Function.apply_update (fun _ cpu => LockCpu.guards cpu) s.cpu c cpu c'
    have hg := hstep.guards
    rw [hguards]
    have hsame : s'.mutexes = s.mutexes → cpu.guards = (s.cpu c).guards →
        Atomic s'.mutexes (Function.update s.guards c cpu.guards) t := by
      intro hm heq
      rw [hm, heq]
      exact (Function.update_eq_self c s.guards).symm ▸ h
    cases e with
    | none => exact ⟨t, .refl, hsame happly hg⟩
    | test k locked => exact ⟨t, .refl, hsame happly.2 hg⟩
    | acquire k =>
      obtain ⟨daif, l, hl, hg⟩ := hg
      rw [happly.2, hg]
      exact ⟨t, .refl, h.acquire happly.1 hl⟩
    | access k x w =>
      obtain ⟨gs, gs', daif, l, l', ha, hg, hg'⟩ := hg
      rw [happly.2, hg']
      exact ⟨t, .refl, h.access hex hg (happly.1 ▸ ha)⟩
    | release k =>
      obtain ⟨daif, l, hdone, hg⟩ := hg
      obtain ⟨l₀, hl₀, hrun⟩ := h.ran c ⟨k, daif, l⟩ (by simp [LockState.guards, hg])
      rw [show s'.mutexes = _ from happly]
      exact ⟨_, .single ⟨k, l₀, l, _, hl₀, hrun, hdone, rfl⟩, h.release hex hg⟩

/-- One step of the code of a CPU. -/
theorem lockRun_code {c : ι} {e : LockEffect κ σ} {d d' : BitVec 64} {ctx ctx' : LockContext P}
    {fs : List (LockContext P × BitVec 64)} {m : Mutexes κ σ} (h : (lockSystem P base v).Reachable s)
    (hcpu : s.cpu c = ⟨d, ctx, fs⟩) (hstep : LockContext.Step e (d, ctx) (d', ctx'))
    (happly : e.Apply s.mutexes m) :
    (lockSystem P base v).Reachable ⟨m, Function.update s.cpu c ⟨d', ctx', fs⟩⟩ :=
  h.step ⟨c, e, _, hcpu ▸ .code hstep, happly, rfl⟩

/-- A call of `lock` that finds the mutex free. -/
theorem lockRun_takes {c : ι} {d : BitVec 64} {gs : List (MutexGuard P)}
    {fs : List (LockContext P × BitVec 64)} {k : κ} {l : P.Local} (h : (lockSystem P base v).Reachable s)
    (hcpu : s.cpu c = ⟨d, ⟨.outside, gs⟩, fs⟩) (hcalls : P.Calls (gs.map MutexGuard.mutex) k)
    (hfree : s.mutexes.lock k = false) (hl : P.Start k l) :
    ∃ s', (lockSystem P base v).Reachable s' ∧
      s'.mutexes = { s.mutexes with lock := Function.update s.mutexes.lock k true } ∧
      s'.cpu c = ⟨disableIrqFiq d, ⟨.outside, ⟨k, d, l⟩ :: gs⟩, fs⟩ ∧
      ∀ c', c' ≠ c → s'.cpu c' = s.cpu c' := by
  have h₁ := lockRun_code h hcpu (.call hcalls) rfl
  have h₂ := lockRun_code h₁ (Function.update_self ..) .loaded ⟨hfree, rfl⟩
  have h₃ := lockRun_code h₂ (Function.update_self ..) .disable rfl
  have h₄ := lockRun_code h₃ (Function.update_self ..) (.acquired hl) ⟨hfree, rfl⟩
  refine ⟨_, h₄, rfl, Function.update_self .., fun c' hc => ?_⟩
  simp [hc]

end Runs

end

/-! ## A counter -/

/-- Sections that add one to a number. -/
def counterSections : Sections Unit fun _ => ℕ where
  Local := Bool
  Calls ks _ := ks = []
  Start _ l := l = false
  Access _ x y := x.1 = false ∧ y = (true, x.2 + 1)
  Done _ l := l = true

/-- Two CPUs with IRQs enabled, and a number that is 0. -/
abbrev counterSystem : System (LockState Bool counterSections) :=
  lockSystem counterSections (fun _ => 0#64) fun _ => 0

/-- One CPU has taken the mutex. -/
theorem counter_taken : ∃ s : LockState Bool counterSections, counterSystem.Reachable s ∧
    s.mutexes = ⟨fun _ => true, fun _ => 0⟩ ∧ s.cpu false = ⟨0#64, ⟨.outside, []⟩, []⟩ ∧
      s.cpu true = ⟨disableIrqFiq 0#64, ⟨.outside, [⟨(), 0#64, false⟩]⟩, []⟩ := by
  have h₀ : counterSystem.Reachable
      ⟨⟨fun _ => false, fun _ => 0⟩, fun _ => ⟨0#64, ⟨.outside, []⟩, []⟩⟩ := .init ⟨rfl, rfl⟩
  obtain ⟨s, h, hm, htrue, hother⟩ := lockRun_takes (c := true) (k := ()) h₀ rfl rfl rfl
    (show counterSections.Start () false from rfl)
  refine ⟨s, h, hm.trans ?_, hother false Bool.false_ne_true, htrue⟩
  exact congrArg (Mutexes.mk · _) (funext fun _ => Function.update_self ..)

section

variable {κ : Type} {σ : κ → Type} {P : Sections κ σ} {ι : Type} [DecidableEq ι] [DecidableEq κ]
  {base : ι → BitVec 64} {v : (k : κ) → σ k} {s : LockState ι P}

/-! ## The results -/

/-- Whatever the order of the steps : the data that sections find, and leave in free mutexes, is
that of a run in which each section is one step. -/
theorem lockRun_atomic (h : (lockSystem P base v).Reachable s) :
    ∃ t, (atomicSystem P v).Reachable t ∧ (∀ k, s.mutexes.lock k = false → s.mutexes.data k = t k) ∧
      ∀ c, ∀ g ∈ (s.cpu c).guards, g.Ran t s.mutexes.data := by
  obtain ⟨t, ht, hfree, hran⟩ := lock_simulation.reachable h
  exact ⟨t, ht, hfree, hran⟩

/-- One is added. -/
theorem lockRun_atomic_counter : ∃ s : LockState Bool counterSections, s.mutexes.data () = 1 ∧
    ∃ t, (atomicSystem counterSections fun _ => 0).Reachable t ∧
      (∀ k, s.mutexes.lock k = false → s.mutexes.data k = t k) ∧
        ∀ c, ∀ g ∈ (s.cpu c).guards, g.Ran t s.mutexes.data := by
  obtain ⟨⟨_, cpu⟩, h, rfl, -, hcpu⟩ := counter_taken
  have h₁ := lockRun_code (c := true) h hcpu (.access [] ⟨rfl, rfl⟩) ⟨rfl, rfl⟩
  have h₂ := lockRun_code (c := true) h₁ rfl (.store rfl) rfl
  exact ⟨_, rfl, lockRun_atomic h₂⟩

/-- What each step of a CPU keeps, all CPUs keep. -/
theorem lockRun_cpu {Q : ι → LockCpu P → Prop} (hinit : ∀ c, Q c ⟨base c, ⟨.outside, []⟩, []⟩)
    (hstep : ∀ c e cpu cpu', LockCpu.Step e cpu cpu' → Q c cpu → Q c cpu')
    (h : (lockSystem P base v).Reachable s) (c : ι) : Q c (s.cpu c) := by
  refine h.induction (P := fun s : LockState ι P => ∀ c, Q c (s.cpu c)) (fun s hs => ?_) ?_ c
  · rw [hs.2]
    exact hinit
  · rintro s s' - ih ⟨c, e, cpu, hs, -, hcpu⟩ c'
    rw [hcpu]
    by_cases hc : c' = c
    · subst hc
      rw [Function.update_self]
      exact hstep c' e _ _ hs (ih c')
    · rw [Function.update_of_ne hc]
      exact ih c'

theorem lockRun_masks (h : (lockSystem P base v).Reachable s) (c : ι) : (s.cpu c).Masks (base c) :=
  lockRun_cpu (Q := fun c cpu => cpu.Masks (base c)) (fun _ => .inl ⟨rfl, _, rfl, rfl⟩)
    (fun _ _ _ _ hs => hs.masks) h c

/-- A CPU that holds a mutex takes no interrupt : IRQs are disabled, and code that was interrupted
holds none. Handlers do not nest, and code that has dropped all its guards has the `DAIF` that it
began with. -/
theorem lockRun_masked (h : (lockSystem P base v).Reachable s) (c : ι) :
    ((s.cpu c).guards ≠ [] → isIrqMasked (s.cpu c).daif = true) ∧
      (∀ f ∈ (s.cpu c).interrupted, f.1.guards = []) ∧ (s.cpu c).interrupted.length ≤ 1 ∧
        ((s.cpu c).interrupted = [] → (s.cpu c).current = ⟨.outside, []⟩ → (s.cpu c).daif = base c) := by
  have hint := (lockRun_masks h c).interrupted
  obtain ⟨hnil, hm⟩ | ⟨ctx, d, hone, -, -, hcur⟩ := lockRun_masks h c
  · refine ⟨fun hne => hm.isIrqMasked ?_, hint, by simp [hnil], fun _ hcur => ?_⟩
    · simpa [LockCpu.guards, hnil] using hne
    · obtain ⟨settled, hs, hsaved⟩ := hm
      rw [hcur] at hs hsaved
      exact (show settled = _ from hs).symm.trans hsaved
  · refine ⟨fun _ => ?_, hint, by simp [hone], fun hc => ?_⟩
    · exact hcur.isIrqMasked_of_base (isIrqMasked_exceptionDaif d)
    · rw [hone] at hc
      cases hc

/-- The CPU that has taken the mutex has IRQs disabled. -/
theorem lockRun_masked_counter : ∃ s : LockState Bool counterSections,
    (s.cpu true).guards ≠ [] ∧ isIrqMasked (s.cpu true).daif = true := by
  obtain ⟨s, h, -, -, hcpu⟩ := counter_taken
  have hg : (s.cpu true).guards ≠ [] := by simp [LockCpu.guards, hcpu]
  exact ⟨s, hg, (lockRun_masked h true).1 hg⟩

/-- Code that takes its mutexes in one order does not deadlock : while a CPU waits, another one is
in a section and does not. -/
theorem lockRun_moves [Preorder κ] [WellFoundedGT κ] (hcalls : ∀ ks k, P.Calls ks k → ∀ j ∈ ks, j < k)
    (h : (lockSystem P base v).Reachable s) {c : ι} (hblocked : s.Blocked c) :
    ∃ c', (s.cpu c').current.guards ≠ [] ∧ ¬s.Blocked c' := by
  obtain ⟨k, hk, hlock⟩ := hblocked
  induction k using WellFoundedGT.induction generalizing c with
  | _ k ih =>
    obtain ⟨c', hheld⟩ := ((lockRun_exclusive h).locked k).mp hlock
    have hint := (lockRun_masks h c').interrupted
    -- The owner has not been interrupted.
    have hcur : k ∈ (s.cpu c').current.guards.map MutexGuard.mutex := by
      have hnil : ((s.cpu c').interrupted.flatMap fun f => f.1.guards) = [] :=
        List.flatMap_eq_nil_iff.mpr hint
      simpa only [LockCpu.held, LockCpu.guards, hnil, List.append_nil] using hheld
    by_cases hb : s.Blocked c'
    · obtain ⟨k', hk', hlock'⟩ := hb
      have hcalled := lockRun_cpu (Q := fun _ cpu => cpu.Called)
        (fun _ => ⟨fun k hk => (by cases hk), fun f hf => absurd hf List.not_mem_nil⟩)
        (fun _ _ _ _ hs => hs.called) h c'
      exact ih k' (hcalls _ _ (hcalled.1 k' hk') k hcur) hk' hlock'
    · refine ⟨c', fun hnil => ?_, hb⟩
      rw [hnil] at hcur
      cases hcur

end

end MiniVisor
