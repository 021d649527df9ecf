import MiniVisor.Checked
import MiniVisor.Transition
import Mathlib.Data.Fintype.EquivFin
import Mathlib.Data.Finset.Card

/-!
# The list of the VMs

`create_vm` takes a number from `NEXT_VM_ID`, names the disk by it, puts the VM into `VM_LIST`,
makes it the active one, and leaves the number in `TPIDR_EL2` of its CPU, where the handlers find it
again (`get_current_vm`). `VmTable.Step` is one such step of one CPU, or a switch by the console.
What is done with `VM_LIST` happens in one section of its mutex, and is one step.

In `VmTable.system` the CPUs interleave in any order. Left out are the memory, the registers and the
files, and the mutex of `VIRTIO_BLK`, which a CPU holds over all of `create_vm` : the boot CPU runs
it before there are others. So the program has fewer runs than `system`. A CPU that panics, in
`from_utf8` for the number 80 or where a file is not found, is one that takes no more steps. Every
CPU finds the VM that it has created, and no other CPU finds it (`vmRun_current`). The active VM is
always one of the list, and a switch succeeds exactly for the number of one of the list
(`vmRun_active`).

`VmTable.sectioned` has the mutex : at most one CPU is inside of `create_vm`. There the CPU with the
number 80 panics and keeps the mutex, so no other comes after it, and the names of the disks, which
have the number cut to 8 bits, are different (`vmRun_disks`). -/

set_option linter.unusedSectionVars false

namespace MiniVisor

open Machine

/-- A `VM` in `VM_LIST` : its number, the name of the file that is its disk, and its other fields. -/
structure NumberedVm (α : Type) where
  vmId : ℕ
  disk : String
  fields : α

/-- The name of the disk, from `file_name` to `unwrap`. -/
def diskName (vmId : ℕ) : Exec String := do
  let digit ← checkedAdd 8 '0'.toNat (vmId % 2 ^ 8)
  match String.fromUTF8? ⟨#[0x44, 0x49, 0x53, 0x4B, UInt8.ofNat digit]⟩ with
  | none => .error .unwrap
  | some name => pure name

section

variable {α : Type}

/-- `get_current_vm`, with `TPIDR_EL2`. -/
def getCurrentVm (vmList : List (NumberedVm α)) (tpidrEl2 : ℕ) : Exec (NumberedVm α) :=
  match vmList.find? fun vm => vm.vmId = tpidrEl2 with
  | none => .error .unwrap
  | some vm => .ok vm

/-- `get_active_vm`. -/
def getActiveVm (activeVm : Option (NumberedVm α)) : Exec (NumberedVm α) :=
  match activeVm with
  | none => .error .unwrap
  | some vm => .ok vm

/-- `switch_active_vm`, with `ACTIVE_VM`. -/
def switchActiveVm (vmList : List (NumberedVm α)) (vmId : ℕ) (activeVm : Option (NumberedVm α)) :
    Bool × Option (NumberedVm α) :=
  match vmList.find? fun vm => vm.vmId = vmId with
  | none => (false, activeVm)
  | some vm => (true, some vm)

/-- How far a CPU is in `create_vm`. -/
inductive VmPc (α : Type)
  /-- Before `fetch_add`. -/
  | idle
  | numbered (vmId : ℕ)
  /-- Before `switch_active_vm`. -/
  | listed (vm : NumberedVm α)
  /-- Before `set_tpidr_el2`. -/
  | active (vm : NumberedVm α)
  | running (vm : NumberedVm α)

structure VmTable (ι α : Type) where
  nextVmId : ℕ
  vmList : List (NumberedVm α)
  activeVm : Option (NumberedVm α)
  tpidrEl2 : ι → ℕ
  pc : ι → VmPc α

namespace VmTable

variable {ι : Type} [DecidableEq ι]

/-- One step of the CPU `c`. A CPU that stops for an error takes no more steps. -/
inductive Step : VmTable ι α → VmTable ι α → Prop
  | fetchAdd {s : VmTable ι α} (c : ι) (hpc : s.pc c = .idle) :
      Step s { s with
        nextVmId := (s.nextVmId + 1) % 2 ^ 64
        pc := Function.update s.pc c (.numbered s.nextVmId) }
  | pushBack {s : VmTable ι α} (c : ι) (vm : NumberedVm α) (hpc : s.pc c = .numbered vm.vmId)
      (hdisk : diskName vm.vmId = .ok vm.disk) :
      Step s { s with
        vmList := s.vmList ++ [vm]
        pc := Function.update s.pc c (.listed vm) }
  | switchOwn {s : VmTable ι α} (c : ι) (vm : NumberedVm α) (hpc : s.pc c = .listed vm) :
      Step s { s with
        activeVm := (switchActiveVm s.vmList vm.vmId s.activeVm).2
        pc := Function.update s.pc c (.active vm) }
  | setTpidr {s : VmTable ι α} (c : ι) (vm : NumberedVm α) (hpc : s.pc c = .active vm) :
      Step s { s with
        tpidrEl2 := Function.update s.tpidrEl2 c vm.vmId
        pc := Function.update s.pc c (.running vm) }
  | switchCommand {s : VmTable ι α} (vmId : ℕ) :
      Step s { s with activeVm := (switchActiveVm s.vmList vmId s.activeVm).2 }

/-- From the start of the program on. -/
def system (ι α : Type) [DecidableEq ι] : System (VmTable ι α) where
  Init s := s.nextVmId = 0 ∧ s.vmList = [] ∧ s.activeVm = none ∧ s.pc = fun _ => .idle
  Step := Step

end VmTable

/-- The number that a CPU has. -/
def VmPc.vmId : VmPc α → Option ℕ
  | idle => none
  | numbered vmId => some vmId
  | listed vm => some vm.vmId
  | active vm => some vm.vmId
  | running vm => some vm.vmId

/-- The VM that a CPU has put into the list. -/
def VmPc.vm : VmPc α → Option (NumberedVm α)
  | listed vm => some vm
  | active vm => some vm
  | running vm => some vm
  | _ => none

theorem VmPc.vmId_of_vm {pc : VmPc α} {vm : NumberedVm α} (h : pc.vm = some vm) :
    pc.vmId = some vm.vmId := by
  cases pc with
  | idle => cases h
  | numbered => cases h
  | _ =>
    obtain rfl := Option.some.inj h
    rfl

/-! ## Numbers -/

section Numbers

variable {ι : Type} [Fintype ι] [DecidableEq ι]

/-- The CPUs that have a number. -/
def startedCpus (pc : ι → VmPc α) : Finset ι :=
  Finset.univ.filter fun c => (pc c).vmId.isSome

theorem mem_startedCpus {pc : ι → VmPc α} {c : ι} : c ∈ startedCpus pc ↔ (pc c).vmId ≠ none := by
  rw [startedCpus, Finset.mem_filter, Option.isSome_iff_ne_none, and_iff_right (Finset.mem_univ c)]

/-- The numbers are given in order. -/
structure Numbered (nextVmId : ℕ) (pc : ι → VmPc α) : Prop where
  next : nextVmId = (startedCpus pc).card % 2 ^ 64
  bounded : ∀ c n, (pc c).vmId = some n → n < (startedCpus pc).card
  unique : ∀ c c' n, (pc c).vmId = some n → (pc c').vmId = some n → c = c'

variable {nextVmId : ℕ} {pc : ι → VmPc α} {c : ι} {x : VmPc α}

/-- The CPU keeps its number. -/
theorem Numbered.update (h : Numbered nextVmId pc) (hx : x.vmId = (pc c).vmId) :
    Numbered nextVmId (Function.update pc c x) := by
  have hsame : ∀ c', (Function.update pc c x c').vmId = (pc c').vmId := by
    intro c'
    by_cases hc : c' = c
    · subst hc
      rw [Function.update_self, hx]
    · rw [Function.update_of_ne hc]
  have hstarted : startedCpus (Function.update pc c x) = startedCpus pc :=
    Finset.filter_congr fun c' _ => by rw [hsame]
  refine ⟨?_, fun c' n => ?_, fun c' c'' n => ?_⟩
  · rw [hstarted]
    exact h.next
  · rw [hsame, hstarted]
    exact h.bounded c' n
  · rw [hsame, hsame]
    exact h.unique c' c'' n

/-- With at most `2 ^ 64` CPUs each gets a number of its own. -/
theorem Numbered.fetchAdd (hcpus : Fintype.card ι ≤ 2 ^ 64) (h : Numbered nextVmId pc)
    (hpc : (pc c).vmId = none) :
    Numbered ((nextVmId + 1) % 2 ^ 64) (Function.update pc c (.numbered nextVmId)) := by
  have hnot : c ∉ startedCpus pc := fun hc => mem_startedCpus.mp hc hpc
  have hlt : (startedCpus pc).card < Fintype.card ι := Finset.card_lt_univ_of_notMem hnot
  have hnext : nextVmId = (startedCpus pc).card := by
    rw [h.next]
    exact Nat.mod_eq_of_lt (by omega)
  have hstarted : startedCpus (Function.update pc c (.numbered nextVmId)) = insert c (startedCpus pc) := by
    refine Finset.ext fun c' => ?_
    rw [mem_startedCpus, Finset.mem_insert, mem_startedCpus]
    by_cases hc : c' = c
    · subst hc
      rw [Function.update_self]
      exact iff_of_true (Option.some_ne_none _) (.inl rfl)
    · rw [Function.update_of_ne hc, or_iff_right hc]
  have hcard : (startedCpus (Function.update pc c (.numbered nextVmId))).card = nextVmId + 1 := by
    rw [hstarted, Finset.card_insert_of_notMem hnot, hnext]
  have hcases : ∀ c' n, (Function.update pc c (.numbered nextVmId) c').vmId = some n →
      c' = c ∧ n = nextVmId ∨ c' ≠ c ∧ (pc c').vmId = some n := by
    intro c' n hn
    by_cases hc : c' = c
    · subst hc
      rw [Function.update_self] at hn
      exact .inl ⟨rfl, (Option.some.inj hn).symm⟩
    · rw [Function.update_of_ne hc] at hn
      exact .inr ⟨hc, hn⟩
  refine ⟨by rw [hcard], fun c' n hn => ?_, fun c' c'' n hn hn' => ?_⟩
  · rw [hcard]
    obtain ⟨-, rfl⟩ | ⟨-, hn⟩ := hcases c' n hn
    · omega
    · have := h.bounded c' n hn
      omega
  · obtain ⟨rfl, rfl⟩ | ⟨-, hold⟩ := hcases c' n hn
    · obtain ⟨rfl, -⟩ | ⟨-, hold'⟩ := hcases c'' n hn'
      · rfl
      · have := h.bounded c'' n hold'
        omega
    · obtain ⟨rfl, rfl⟩ | ⟨-, hold'⟩ := hcases c'' n hn'
      · have := h.bounded c' n hold
        omega
      · exact h.unique c' c'' n hold hold'

end Numbers

/-! ## What the CPUs keep -/

theorem switchActiveVm_eq (vmList : List (NumberedVm α)) (n : ℕ) (activeVm : Option (NumberedVm α)) :
    (∃ vm ∈ vmList, vm.vmId = n ∧ switchActiveVm vmList n activeVm = (true, some vm)) ∨
      (∀ vm ∈ vmList, vm.vmId ≠ n) ∧ switchActiveVm vmList n activeVm = (false, activeVm) := by
  unfold switchActiveVm
  cases hfind : vmList.find? fun vm => vm.vmId = n with
  | none => exact .inr ⟨by simpa using hfind, rfl⟩
  | some vm => exact .inl ⟨vm, List.mem_of_find?_eq_some hfind, by simpa using List.find?_some hfind, rfl⟩

namespace VmTable

variable {ι : Type} [Fintype ι] [DecidableEq ι] {s s' : VmTable ι α}

/-- The list has what the CPUs have put into it, and the active VM is one of it. -/
structure Inv (s : VmTable ι α) : Prop where
  numbered : Numbered s.nextVmId s.pc
  listed : ∀ vm, vm ∈ s.vmList ↔ ∃ c, (s.pc c).vm = some vm
  tpidr : ∀ c vm, s.pc c = .running vm → s.tpidrEl2 c = vm.vmId
  active : ∀ vm, s.activeVm = some vm → vm ∈ s.vmList
  switched : ∀ c vm, s.pc c = .active vm ∨ s.pc c = .running vm → s.activeVm ≠ none

theorem Inv.init (h : (system ι α).Init s) : Inv s := by
  obtain ⟨hnext, hlist, hactive, hpc⟩ := h
  have hnone : ∀ c, (s.pc c).vmId = none := fun c => by rw [hpc]; rfl
  refine ⟨⟨?_, ?_, ?_⟩, ?_, ?_, ?_, ?_⟩
  · have : startedCpus s.pc = ∅ := Finset.eq_empty_of_forall_notMem fun c hc =>
        mem_startedCpus.mp hc (hnone c)
    rw [hnext, this]
    rfl
  · intro c n hn
    rw [hnone] at hn
    cases hn
  · intro c c' n hn
    rw [hnone] at hn
    cases hn
  · intro vm
    rw [hlist, hpc]
    exact iff_of_false List.not_mem_nil fun ⟨c, hc⟩ => by cases hc
  · intro c vm hc
    rw [hpc] at hc
    cases hc
  · intro vm hvm
    rw [hactive] at hvm
    cases hvm
  · intro c vm hc
    rw [hpc] at hc
    obtain hc | hc := hc <;> cases hc

/-- No two VMs of the list have one number. -/
theorem Inv.vmId_inj (h : Inv s) {vm vm' : NumberedVm α} (hvm : vm ∈ s.vmList) (hvm' : vm' ∈ s.vmList)
    (heq : vm.vmId = vm'.vmId) : vm = vm' := by
  obtain ⟨c, hc⟩ := (h.listed vm).mp hvm
  obtain ⟨c', hc'⟩ := (h.listed vm').mp hvm'
  obtain rfl := h.numbered.unique c c' vm.vmId (VmPc.vmId_of_vm hc) (heq ▸ VmPc.vmId_of_vm hc')
  exact Option.some.inj (hc.symm.trans hc')

/-- What a switch leaves. -/
theorem Inv.switch (h : Inv s) (n : ℕ) :
    (∀ vm, (switchActiveVm s.vmList n s.activeVm).2 = some vm → vm ∈ s.vmList) ∧
      (s.activeVm ≠ none → (switchActiveVm s.vmList n s.activeVm).2 ≠ none) := by
  obtain ⟨vm, hvm, -, heq⟩ | ⟨-, heq⟩ := switchActiveVm_eq s.vmList n s.activeVm
  · rw [heq]
    refine ⟨fun vm' h' => ?_, fun _ => Option.some_ne_none vm⟩
    obtain rfl := Option.some.inj h'
    exact hvm
  · rw [heq]
    exact ⟨h.active, id⟩

/-- A CPU that goes on with what it has. -/
theorem listed_update {pc : ι → VmPc α} {c : ι} {x : VmPc α} (hx : x.vm = (pc c).vm) (vm : NumberedVm α) :
    (∃ c', (Function.update pc c x c').vm = some vm) ↔ ∃ c', (pc c').vm = some vm := by
  refine exists_congr fun c' => ?_
  by_cases hc : c' = c
  · subst hc
    rw [Function.update_self, hx]
  · rw [Function.update_of_ne hc]

/-- A CPU that has put a VM into the list. -/
theorem listed_push {pc : ι → VmPc α} {c : ι} {vm : NumberedVm α} (hpc : (pc c).vm = none)
    (vm' : NumberedVm α) :
    (∃ c', (Function.update pc c (.listed vm) c').vm = some vm') ↔
      (∃ c', (pc c').vm = some vm') ∨ vm' = vm := by
  constructor
  · rintro ⟨c', hc'⟩
    by_cases hc : c' = c
    · subst hc
      rw [Function.update_self] at hc'
      exact .inr (Option.some.inj hc').symm
    · rw [Function.update_of_ne hc] at hc'
      exact .inl ⟨c', hc'⟩
  · rintro (⟨c', hc'⟩ | rfl)
    · refine ⟨c', ?_⟩
      have hc : c' ≠ c := by
        rintro rfl
        rw [hpc] at hc'
        cases hc'
      rwa [Function.update_of_ne hc]
    · exact ⟨c, by rw [Function.update_self]; rfl⟩

/-- Which CPUs have made a switch of their own, after a step of `c`. -/
theorem switched_update {pc : ι → VmPc α} {c c' : ι} {x : VmPc α} {vm : NumberedVm α}
    (h : Function.update pc c x c' = .active vm ∨ Function.update pc c x c' = .running vm) :
    (x = .active vm ∨ x = .running vm) ∨ pc c' = .active vm ∨ pc c' = .running vm := by
  by_cases hc : c' = c
  · subst hc
    rw [Function.update_self] at h
    exact .inl h
  · rw [Function.update_of_ne hc] at h
    exact .inr h

theorem running_update {pc : ι → VmPc α} {c c' : ι} {x : VmPc α} {vm : NumberedVm α}
    (h : Function.update pc c x c' = .running vm) : c' = c ∧ x = .running vm ∨ c' ≠ c ∧ pc c' =
    .running vm := by
  by_cases hc : c' = c
  · subst hc
    rw [Function.update_self] at h
    exact .inl ⟨rfl, h⟩
  · rw [Function.update_of_ne hc] at h
    exact .inr ⟨hc, h⟩

theorem Inv.step (hcpus : Fintype.card ι ≤ 2 ^ 64) (h : Inv s) (hs : Step s s') : Inv s' := by
  cases hs with
  | fetchAdd c hpc =>
    refine ⟨h.numbered.fetchAdd hcpus (by rw [hpc]; rfl), fun vm => ?_, fun c' vm hc' => ?_, h.active,
      fun c' vm hc' => ?_⟩
    · rw [listed_update (by rw [hpc]; rfl)]
      exact h.listed vm
    · obtain ⟨-, hx⟩ | ⟨-, hold⟩ := running_update hc'
      · cases hx
      · exact h.tpidr c' vm hold
    · obtain hx | hc' := switched_update hc'
      · obtain hx | hx := hx <;> cases hx
      · exact h.switched c' vm hc'
  | pushBack c vm hpc hdisk =>
    refine ⟨h.numbered.update (by rw [hpc]; rfl), fun vm' => ?_, fun c' vm' hc' => ?_, fun vm' hvm => ?_,
      fun c' vm' hc' => ?_⟩
    · rw [listed_push (by rw [hpc]; rfl), List.mem_append, List.mem_singleton, h.listed vm']
    · obtain ⟨-, hx⟩ | ⟨-, hold⟩ := running_update hc'
      · cases hx
      · exact h.tpidr c' vm' hold
    · exact List.mem_append_left _ (h.active vm' hvm)
    · obtain hx | hc' := switched_update hc'
      · obtain hx | hx := hx <;> cases hx
      · exact h.switched c' vm' hc'
  | switchOwn c vm hpc =>
    obtain ⟨hmem, hkeeps⟩ := h.switch vm.vmId
    refine ⟨h.numbered.update (by rw [hpc]; rfl), fun vm' => ?_, fun c' vm' hc' => ?_, hmem,
      fun c' vm' hc' => ?_⟩
    · rw [listed_update (by rw [hpc]; rfl)]
      exact h.listed vm'
    · obtain ⟨-, hx⟩ | ⟨-, hold⟩ := running_update hc'
      · cases hx
      · exact h.tpidr c' vm' hold
    · -- The VM of this CPU is in the list.
      obtain ⟨vm', -, -, heq⟩ | ⟨hnot, -⟩ := switchActiveVm_eq s.vmList vm.vmId s.activeVm
      · rw [heq]
        exact Option.some_ne_none vm'
      · exact absurd rfl (hnot vm ((h.listed vm).mpr ⟨c, by rw [hpc]; rfl⟩))
  | setTpidr c vm hpc =>
    refine ⟨h.numbered.update (by rw [hpc]; rfl), fun vm' => ?_, fun c' vm' hc' => ?_, h.active,
      fun c' vm' hc' => ?_⟩
    · rw [listed_update (by rw [hpc]; rfl)]
      exact h.listed vm'
    · obtain ⟨rfl, hx⟩ | ⟨hc, hold⟩ := running_update hc'
      · cases hx
        exact Function.update_self ..
      · exact (Function.update_of_ne hc ..).trans (h.tpidr c' vm' hold)
    · obtain hx | hc' := switched_update hc'
      · exact h.switched c vm (.inl hpc)
      · exact h.switched c' vm' hc'
  | switchCommand n =>
    obtain ⟨hmem, hkeeps⟩ := h.switch n
    exact ⟨h.numbered, h.listed, h.tpidr, hmem, fun c vm hc => hkeeps (h.switched c vm hc)⟩

theorem reachable_inv (hcpus : Fintype.card ι ≤ 2 ^ 64) (h : (system ι α).Reachable s) : Inv s :=
  h.induction (fun _ => .init) fun _ _ _ ih hs => ih.step hcpus hs

/-- Two CPUs run their VMs. The second one has put its VM into the list first, and made it the
active one last. -/
theorem exists_running : ∃ s : VmTable Bool Unit, (system Bool Unit).Reachable s ∧
    s.pc false = .running ⟨0, "DISK0", ()⟩ ∧ s.pc true = .running ⟨1, "DISK1", ()⟩ ∧
    s.vmList = [⟨1, "DISK1", ()⟩, ⟨0, "DISK0", ()⟩] ∧ s.activeVm = some ⟨1, "DISK1", ()⟩ := by
  have h := System.Reachable.init (S := system Bool Unit) (s := ⟨0, [], none, fun _ => 0, fun _ => .idle⟩)
    ⟨rfl, rfl, rfl, rfl⟩
  have h := h.step (.fetchAdd false rfl)
  have h := h.step (.fetchAdd true rfl)
  have h := h.step (.pushBack true ⟨1, "DISK1", ()⟩ rfl rfl)
  have h := h.step (.pushBack false ⟨0, "DISK0", ()⟩ rfl rfl)
  have h := h.step (.switchOwn false ⟨0, "DISK0", ()⟩ rfl)
  have h := h.step (.setTpidr false ⟨0, "DISK0", ()⟩ rfl)
  have h := h.step (.switchOwn true ⟨1, "DISK1", ()⟩ rfl)
  have h := h.step (.setTpidr true ⟨1, "DISK1", ()⟩ rfl)
  exact ⟨_, h, rfl, rfl, rfl, rfl⟩

end VmTable

variable {ι : Type} [Fintype ι] [DecidableEq ι] {s : VmTable ι α}

/-! ## The results -/

/-- Every CPU finds the VM that it has created, and no other CPU does. -/
theorem vmRun_current (hcpus : Fintype.card ι ≤ 2 ^ 64) (h : (VmTable.system ι α).Reachable s) {c : ι}
    {vm : NumberedVm α} (hpc : s.pc c = .running vm) :
    getCurrentVm s.vmList (s.tpidrEl2 c) = .ok vm ∧
      ∀ c' vm', s.pc c' = .running vm' → getCurrentVm s.vmList (s.tpidrEl2 c') = .ok vm → c' = c := by
  have hinv := VmTable.reachable_inv hcpus h
  have hfinds : ∀ c vm, s.pc c = .running vm → getCurrentVm s.vmList (s.tpidrEl2 c) = .ok vm := by
    intro c vm hpc
    have hvm : vm ∈ s.vmList := (hinv.listed vm).mpr ⟨c, by rw [hpc]; rfl⟩
    rw [hinv.tpidr c vm hpc, getCurrentVm]
    cases hfind : s.vmList.find? fun x => x.vmId = vm.vmId with
    | none => exact absurd (decide_eq_true rfl) (List.find?_eq_none.mp hfind vm hvm)
    | some x =>
      have hx : x.vmId = vm.vmId := by simpa using List.find?_some hfind
      exact congrArg Except.ok (hinv.vmId_inj (List.mem_of_find?_eq_some hfind) hvm hx)
  refine ⟨hfinds c vm hpc, fun c' vm' hpc' hfound => ?_⟩
  obtain rfl : vm' = vm := Except.ok.inj ((hfinds c' vm' hpc').symm.trans hfound)
  exact hinv.numbered.unique c' c vm'.vmId (by rw [hpc']; rfl) (by rw [hpc]; rfl)

/-- Each of two CPUs finds its own VM. -/
theorem vmRun_current_two : ∃ s : VmTable Bool Unit, s.pc false = .running ⟨0, "DISK0", ()⟩ ∧
    s.pc true = .running ⟨1, "DISK1", ()⟩ ∧ getCurrentVm s.vmList (s.tpidrEl2 false) = .ok
      ⟨0, "DISK0", ()⟩ ∧
    getCurrentVm s.vmList (s.tpidrEl2 true) = .ok ⟨1, "DISK1", ()⟩ := by
  obtain ⟨s, h, hpc, hpc', -⟩ := VmTable.exists_running
  exact ⟨s, hpc, hpc', (vmRun_current (by decide) h hpc).1, (vmRun_current (by decide) h hpc').1⟩

/-- Once a CPU runs its VM there is an active VM, which is one of the list. A switch succeeds
exactly for the number of one of the list. It makes that VM the active one and changes nothing else. -/
theorem vmRun_active (hcpus : Fintype.card ι ≤ 2 ^ 64) (h : (VmTable.system ι α).Reachable s) {c : ι}
    {vm : NumberedVm α} (hpc : s.pc c = .running vm) :
    (∃ active ∈ s.vmList, getActiveVm s.activeVm = .ok active) ∧
      ∀ n, ((switchActiveVm s.vmList n s.activeVm).1 = true ↔ ∃ x ∈ s.vmList, x.vmId = n) ∧
        ((switchActiveVm s.vmList n s.activeVm).1 = false →
          (switchActiveVm s.vmList n s.activeVm).2 = s.activeVm) ∧
        ∀ x ∈ s.vmList, x.vmId = n → (switchActiveVm s.vmList n s.activeVm).2 = some x := by
  have hinv := VmTable.reachable_inv hcpus h
  refine ⟨?_, fun n => ?_⟩
  · cases hactive : s.activeVm with
    | none => exact absurd hactive (hinv.switched c vm (.inr hpc))
    | some active => exact ⟨active, hinv.active active hactive, rfl⟩
  · obtain ⟨x, hx, hn, heq⟩ | ⟨hnot, heq⟩ := switchActiveVm_eq s.vmList n s.activeVm
    · rw [heq]
      refine ⟨iff_of_true rfl ⟨x, hx, hn⟩, fun hf => (by cases hf), fun y hy hyn => ?_⟩
      rw [hinv.vmId_inj hy hx (hyn.trans hn.symm)]
    · rw [heq]
      exact ⟨iff_of_false Bool.false_ne_true fun ⟨x, hx, hn⟩ => hnot x hx hn, fun _ => rfl,
        fun y hy hyn => absurd hyn (hnot y hy)⟩

/-- The VM of the second CPU is the active one, and a switch makes it that of the first one. -/
theorem vmRun_active_two : ∃ s : VmTable Bool Unit, getActiveVm s.activeVm = .ok ⟨1, "DISK1", ()⟩ ∧
    (switchActiveVm s.vmList 0 s.activeVm).2 = some ⟨0, "DISK0", ()⟩ ∧
    (switchActiveVm s.vmList 2 s.activeVm).1 = false := by
  obtain ⟨s, h, hpc, -, hlist, hactive⟩ := VmTable.exists_running
  obtain ⟨-, hswitch⟩ := vmRun_active (by decide) h hpc
  obtain ⟨-, -, hfound⟩ := hswitch 0
  obtain ⟨hiff, -, -⟩ := hswitch 2
  refine ⟨s, congrArg getActiveVm hactive, hfound ⟨0, "DISK0", ()⟩ (by simp [hlist]) rfl, ?_⟩
  rw [← Bool.not_eq_true, hiff, hlist]
  simp

end

/-! ## Disks -/

theorem toByteArray_of_fromUTF8? {a : ByteArray} {name : String} (h : String.fromUTF8? a = some name) :
    name.toByteArray = a := by
  unfold String.fromUTF8? at h
  split_ifs at h
  exact congrArg String.toByteArray (Option.some.inj h).symm

/-- The name tells the number up to a multiple of 256. -/
theorem diskName_inj {n n' : ℕ} {name : String} (h : diskName n = .ok name) (h' : diskName n' = .ok name) :
    n % 256 = n' % 256 := by
  have hbytes : ∀ {n}, diskName n = .ok name → n % 2 ^ 8 < 208 ∧
      name.toByteArray = ⟨#[0x44, 0x49, 0x53, 0x4B, UInt8.ofNat (48 + n % 2 ^ 8)]⟩ := by
    intro n h
    obtain ⟨digit, hdigit, h⟩ := Exec.bind_eq_ok.mp h
    obtain ⟨hlt, rfl⟩ := checkedAdd_eq_ok.mp hdigit
    have hlt : 48 + n % 2 ^ 8 < 2 ^ 8 := hlt
    cases hname : String.fromUTF8? ⟨#[0x44, 0x49, 0x53, 0x4B, UInt8.ofNat ('0'.toNat + n % 2 ^ 8)]⟩ with
    | none =>
      rw [hname] at h
      cases h
    | some x =>
      rw [hname] at h
      cases h
      exact ⟨by omega, toByteArray_of_fromUTF8? hname⟩
  obtain ⟨hlt, hn⟩ := hbytes h
  obtain ⟨hlt', hn'⟩ := hbytes h'
  have hlast : UInt8.ofNat (48 + n % 2 ^ 8) = UInt8.ofNat (48 + n' % 2 ^ 8) := by
    have := hn.symm.trans hn'
    simpa using this
  have := congrArg UInt8.toNat hlast
  simp only [UInt8.toNat_ofNat'] at this
  omega

/-- The digit of the number 80 is the byte 0x80, which is no character. -/
theorem diskName_eighty : diskName 80 = .error .unwrap := by
  rfl

section

variable {α ι : Type} [DecidableEq ι]

/-- The CPU is inside of `create_vm`. -/
def VmPc.Inside (pc : VmPc α) : Prop :=
  pc ≠ .idle ∧ ∀ vm, pc ≠ .running vm

theorem VmPc.inside_numbered (n : ℕ) : (VmPc.numbered n : VmPc α).Inside :=
  ⟨nofun, nofun⟩

namespace VmTable

/-- No two CPUs are inside of `create_vm`. -/
def Serial (s : VmTable ι α) : Prop :=
  ∀ c c', (s.pc c).Inside → (s.pc c').Inside → c = c'

/-- The program with the mutex of `VIRTIO_BLK`. -/
def sectioned (ι α : Type) [DecidableEq ι] : System (VmTable ι α) where
  Init := (system ι α).Init
  Step s s' := Step s s' ∧ s'.Serial

variable {s s' : VmTable ι α}

/-- The VMs are listed in the order of their numbers, and nobody comes behind the number 80. -/
structure SectionInv (s : VmTable ι α) : Prop where
  serial : s.Serial
  bounded : s.nextVmId ≤ 81
  blocked : s.nextVmId = 81 → ∃ c, s.pc c = .numbered 80
  numbered : ∀ c n, s.pc c = .numbered n → s.nextVmId = n + 1 ∧ ∀ vm ∈ s.vmList, vm.vmId < n
  listed : ∀ vm ∈ s.vmList, vm.vmId < s.nextVmId ∧ vm.vmId < 80 ∧ diskName vm.vmId = .ok vm.disk
  sorted : s.vmList.Pairwise fun vm vm' => vm.vmId < vm'.vmId

theorem SectionInv.init (h : (sectioned ι α).Init s) : SectionInv s := by
  obtain ⟨hnext, hlist, -, hpc⟩ := h
  refine ⟨fun c c' hc => ?_, by omega, fun h => by omega, fun c n hc => ?_, ?_, ?_⟩
  · rw [hpc] at hc
    exact absurd rfl hc.1
  · rw [hpc] at hc
    cases hc
  · rw [hlist]
    exact fun vm hvm => absurd hvm List.not_mem_nil
  · rw [hlist]
    exact .nil

/-- A CPU that goes on inside of `create_vm`, or leaves it, behind its number. -/
theorem SectionInv.goOn (h : SectionInv s) (hserial : s'.Serial) {c : ι} {x : VmPc α}
    (hnext : s'.nextVmId = s.nextVmId) (hlist : s'.vmList = s.vmList)
    (hpc : s'.pc = Function.update s.pc c x)
    (hnot : ∀ n, x ≠ .numbered n) (hnot' : ∀ n, s.pc c ≠ .numbered n) : SectionInv s' := by
  have hkeeps : ∀ c' n, s'.pc c' = .numbered n ↔ s.pc c' = .numbered n := by
    intro c' n
    rw [hpc]
    by_cases hc : c' = c
    · subst hc
      rw [Function.update_self]
      exact iff_of_false (hnot n) (hnot' n)
    · rw [Function.update_of_ne hc]
  refine ⟨hserial, hnext ▸ h.bounded, fun h81 => ?_, fun c' n hc => ?_, ?_, hlist ▸ h.sorted⟩
  · obtain ⟨c', hc⟩ := h.blocked (hnext ▸ h81)
    exact ⟨c', (hkeeps c' 80).mpr hc⟩
  · rw [hnext, hlist]
    exact h.numbered c' n ((hkeeps c' n).mp hc)
  · rw [hnext, hlist]
    exact h.listed

theorem SectionInv.step (h : SectionInv s) (hs : (sectioned ι α).Step s s') : SectionInv s' := by
  obtain ⟨hs, hserial⟩ := hs
  cases hs with
  | fetchAdd c hpc =>
    have hself : (Function.update s.pc c (.numbered s.nextVmId) c).Inside := by
      rw [Function.update_self]
      exact VmPc.inside_numbered _
    -- nobody else is inside
    have honly : ∀ c' n, s.pc c' ≠ .numbered n := by
      intro c' n hc'
      have hne : c' ≠ c := by
        rintro rfl
        cases hpc.symm.trans hc'
      refine hne (hserial c' c ?_ hself)
      simp only [Function.update_of_ne hne, hc']
      exact VmPc.inside_numbered n
    have hfree : s.nextVmId ≤ 80 := by
      have := h.bounded
      by_contra hfull
      obtain ⟨c', hc'⟩ := h.blocked (by omega)
      exact honly c' 80 hc'
    have hnext : (s.nextVmId + 1) % 2 ^ 64 = s.nextVmId + 1 := Nat.mod_eq_of_lt (by omega)
    have hnumbered : ∀ c' n, Function.update s.pc c (.numbered s.nextVmId) c' = .numbered n →
        n = s.nextVmId := by
      intro c' n hc'
      by_cases hc : c' = c
      · rw [hc, Function.update_self] at hc'
        cases hc'
        rfl
      · rw [Function.update_of_ne hc] at hc'
        exact absurd hc' (honly c' n)
    refine ⟨hserial, ?_, fun h81 => ⟨c, ?_⟩, fun c' n hc' => ?_, fun vm hvm => ?_, h.sorted⟩
    · simp only [hnext]
      omega
    · simp only [hnext] at h81
      have h80 : s.nextVmId = 80 := by omega
      exact (Function.update_self ..).trans (congrArg VmPc.numbered h80)
    · obtain rfl := hnumbered c' n hc'
      exact ⟨hnext, fun vm hvm => (h.listed vm hvm).1⟩
    · obtain ⟨hlt, hrest⟩ := h.listed vm hvm
      simp only [hnext]
      exact ⟨by omega, hrest⟩
  | pushBack c vm hpc hdisk =>
    obtain ⟨hnext, hbelow⟩ := h.numbered c vm.vmId hpc
    have hbounded := h.bounded
    have hne : vm.vmId ≠ 80 := by
      intro heq
      rw [heq, diskName_eighty] at hdisk
      cases hdisk
    have honly : ∀ c' n, Function.update s.pc c (.listed vm) c' ≠ .numbered n := by
      intro c' n hc'
      by_cases hc : c' = c
      · rw [hc, Function.update_self] at hc'
        cases hc'
      · rw [Function.update_of_ne hc] at hc'
        refine hc (h.serial c' c ?_ ?_)
        · rw [hc']
          exact VmPc.inside_numbered n
        · rw [hpc]
          exact VmPc.inside_numbered vm.vmId
    refine ⟨hserial, hbounded, fun h81 => ?_, fun c' n hc' => absurd hc' (honly c' n),
      fun vm' hvm => ?_, ?_⟩
    · have h81 : s.nextVmId = 81 := h81
      omega
    · obtain hvm | hvm := List.mem_append.mp hvm
      · exact h.listed vm' hvm
      · rw [List.mem_singleton.mp hvm]
        exact ⟨by simp only; omega, by omega, hdisk⟩
    · refine List.pairwise_append.mpr ⟨h.sorted, List.pairwise_singleton .., fun vm' hvm x hx => ?_⟩
      rw [List.mem_singleton.mp hx]
      exact hbelow vm' hvm
  | switchOwn c vm hpc =>
    exact h.goOn hserial rfl rfl rfl (fun n => nofun) fun n hc => by cases hpc.symm.trans hc
  | setTpidr c vm hpc =>
    exact h.goOn hserial rfl rfl rfl (fun n => nofun) fun n hc => by cases hpc.symm.trans hc
  | switchCommand n => exact ⟨h.serial, h.bounded, h.blocked, h.numbered, h.listed, h.sorted⟩

theorem reachable_sectionInv (h : (sectioned ι α).Reachable s) : SectionInv s :=
  h.induction (fun _ => .init) fun _ _ _ ih hs => ih.step hs

end VmTable

/-- However many CPUs there are, there are never more than 80 VMs, and no two of them have the same
name of a disk. -/
theorem vmRun_disks {s : VmTable ι α} (h : (VmTable.sectioned ι α).Reachable s) :
    s.vmList.length ≤ 80 ∧ ∀ vm ∈ s.vmList, ∀ vm' ∈ s.vmList, vm.disk = vm'.disk → vm = vm' := by
  have hinv := VmTable.reachable_sectionInv h
  have hmap : (s.vmList.map NumberedVm.vmId).Pairwise (· < ·) := List.pairwise_map.mpr hinv.sorted
  constructor
  · have hsub : s.vmList.map NumberedVm.vmId ⊆ List.range 80 := by
      intro n hn
      obtain ⟨vm, hvm, rfl⟩ := List.mem_map.mp hn
      exact List.mem_range.mpr (hinv.listed vm hvm).2.1
    have hle := (hmap.nodup.subperm hsub).length_le
    rwa [List.length_map, List.length_range] at hle
  · intro vm hvm vm' hvm' hdisk
    obtain ⟨-, hlt, hname⟩ := hinv.listed vm hvm
    obtain ⟨-, hlt', hname'⟩ := hinv.listed vm' hvm'
    have hmod := diskName_inj hname (hdisk ▸ hname')
    exact List.inj_on_of_nodup_map hmap.nodup hvm hvm' (by omega)

/-- One of two CPUs is outside of `create_vm`. -/
theorem serial_of_outside {s : VmTable Bool α} (h : ∃ c, ¬(s.pc c).Inside) : s.Serial := by
  obtain ⟨c, hc⟩ := h
  intro c' c'' hc' hc''
  have hne : ∀ {d}, (s.pc d).Inside → d = !c := fun hd => by
    refine Bool.eq_not.mpr ?_
    rintro rfl
    exact hc hd
  rw [hne hc', hne hc'']

/-- The second CPU creates its VM behind the first one. -/
theorem vmRun_disks_two : ∃ s : VmTable Bool Unit, s.vmList = [⟨0, "DISK0", ()⟩, ⟨1, "DISK1", ()⟩] ∧
    s.vmList.length ≤ 80 ∧ ∀ vm ∈ s.vmList, ∀ vm' ∈ s.vmList, vm.disk = vm'.disk → vm = vm' := by
  have h := System.Reachable.init (S := VmTable.sectioned Bool Unit)
    (s := ⟨0, [], none, fun _ => 0, fun _ => .idle⟩) ⟨rfl, rfl, rfl, rfl⟩
  have h := h.step ⟨.fetchAdd false rfl, serial_of_outside ⟨true, fun hc => hc.1 rfl⟩⟩
  have h := h.step ⟨.pushBack false ⟨0, "DISK0", ()⟩ rfl rfl, serial_of_outside ⟨true, fun hc => hc.1 rfl⟩⟩
  have h := h.step ⟨.switchOwn false ⟨0, "DISK0", ()⟩ rfl, serial_of_outside ⟨true, fun hc => hc.1 rfl⟩⟩
  have h := h.step ⟨.setTpidr false ⟨0, "DISK0", ()⟩ rfl, serial_of_outside ⟨true, fun hc => hc.1 rfl⟩⟩
  have h := h.step ⟨.fetchAdd true rfl, serial_of_outside ⟨false, fun hc => hc.2 _ rfl⟩⟩
  have h := h.step ⟨.pushBack true ⟨1, "DISK1", ()⟩ rfl rfl, serial_of_outside
      ⟨false, fun hc => hc.2 _ rfl⟩⟩
  have h := h.step ⟨.switchOwn true ⟨1, "DISK1", ()⟩ rfl, serial_of_outside ⟨false, fun hc => hc.2 _ rfl⟩⟩
  have h := h.step ⟨.setTpidr true ⟨1, "DISK1", ()⟩ rfl, serial_of_outside ⟨false, fun hc => hc.2 _ rfl⟩⟩
  exact ⟨_, rfl, vmRun_disks h⟩

end

end MiniVisor
