import MiniVisor.Dtb

/-!
# Device trees and their flattened form

A device tree is a forest of nodes with properties, written the way the format orders it : a node,
its children, then its siblings. `Forest.bytes` is the flattened form, with any number of NOP tokens
in front of each token, and `Forest.nodes` are the nodes in document order with the addresses behind
their names.

`search_start` says that a search from the start returns the first node that matches. Both searches are
instances : each has to say what its comparisons decide (`Query.Decides`).
-/

namespace MiniVisor

open Machine Dtb

/-! ## Trees -/

/-- A property with the NOP tokens in front of it. `nameOffset` is where the strings block has its name. -/
structure FdtProperty where
  nops : ℕ
  nameOffset : ℕ
  name : List (BitVec 8)
  value : List (BitVec 8)

/-- Nodes in document order. `nops` are in front of a node and `endNops` in front of its end. -/
inductive Forest
  | nil
  | node (nops : ℕ) (name : List (BitVec 8)) (properties : List FdtProperty) (children : Forest)
      (endNops : ℕ) (siblings : Forest)

/-- `k` NOP tokens. -/
def nopBytes : ℕ → List (BitVec 8)
  | 0 => []
  | k + 1 => fdtNop ++ nopBytes k

/-- A name with its end and its padding. -/
def nameBytes (name : List (BitVec 8)) : List (BitVec 8) :=
  (name ++ [0#8]) ++ padding (name ++ [0#8]).length

/-- The flattened property. -/
def FdtProperty.bytes (p : FdtProperty) : List (BitVec 8) :=
  nopBytes p.nops ++ (fdtProp ++ (toBeBytes p.value.length ++ (toBeBytes p.nameOffset ++
    (p.value ++ padding p.value.length))))

def propertiesBytes (ps : List FdtProperty) : List (BitVec 8) :=
  ps.flatMap FdtProperty.bytes

/-- The flattened forest. -/
def Forest.bytes : Forest → List (BitVec 8)
  | .nil => []
  | .node nops name properties children endNops siblings =>
    nopBytes nops ++ (fdtBeginNode ++ (nameBytes name ++ (propertiesBytes properties ++
      (children.bytes ++ (nopBytes endNops ++ (fdtEndNode ++ siblings.bytes))))))

/-- A node of the tree, and the address behind its name. -/
structure TreeNode where
  address : ℕ
  name : List (BitVec 8)
  properties : List FdtProperty

/-- Where the name of a node ends, that begins at `a`. -/
def nameEnd (a nops : ℕ) (name : List (BitVec 8)) : ℕ :=
  a + (nopBytes nops).length + 4 + (nameBytes name).length

/-- Where the children of a node begin. -/
def childrenAt (a nops : ℕ) (name : List (BitVec 8)) (properties : List FdtProperty) : ℕ :=
  nameEnd a nops name + (propertiesBytes properties).length

/-- Where the siblings of a node begin. -/
def siblingsAt (a nops : ℕ) (name : List (BitVec 8)) (properties : List FdtProperty)
    (children : Forest) (endNops : ℕ) : ℕ :=
  childrenAt a nops name properties + children.bytes.length + (nopBytes endNops).length + 4

/-- The nodes of a forest that begins at `a`, in document order. -/
def Forest.nodes : ℕ → Forest → List TreeNode
  | _, .nil => []
  | a, .node nops name properties children endNops siblings =>
    ⟨nameEnd a nops name, name, properties⟩ ::
      (children.nodes (childrenAt a nops name properties) ++
        siblings.nodes (siblingsAt a nops name properties children endNops))

/-- A whole tree, with its root and the NOP tokens in front of the end. -/
structure DeviceTree where
  nops : ℕ
  name : List (BitVec 8)
  properties : List FdtProperty
  children : Forest
  endNops : ℕ
  finalNops : ℕ

/-- The root, as a forest. -/
def DeviceTree.root (t : DeviceTree) : Forest :=
  .node t.nops t.name t.properties t.children t.endNops .nil

/-- The structure block. -/
def DeviceTree.bytes (t : DeviceTree) : List (BitVec 8) :=
  t.root.bytes ++ (nopBytes t.finalNops ++ fdtEnd)

/-- The strings of a string list, each of which ends with a zero. -/
def encodeStrings (strings : List (List (BitVec 8))) : List (BitVec 8) :=
  strings.flatMap fun s => s ++ [0#8]

/-- A string of the format : no zero inside. -/
def IsString (s : List (BitVec 8)) : Prop :=
  ∀ c ∈ s, c ≠ 0#8

/-- The property is stored with its name, and a list of strings if it is `compatible`. -/
structure FdtProperty.Valid (d : Dtb) (p : FdtProperty) : Prop where
  nameOffset : p.nameOffset < d.getStringSize
  offset32 : p.nameOffset < 2 ^ 32
  length32 : p.value.length < 2 ^ 32
  isString : IsString p.name
  stored : HoldsAt d.memory (d.getStringOffset + p.nameOffset) (p.name ++ [0#8])
  strings : p.name = propCompatible → ∃ strings, (∀ s ∈ strings, IsString s) ∧
    p.value = encodeStrings strings

/-- All names are strings, and all properties are valid. -/
def Forest.Valid (d : Dtb) : Forest → Prop
  | .nil => True
  | .node _ name properties children _ siblings =>
    IsString name ∧ (∀ p ∈ properties, p.Valid d) ∧ children.Valid d ∧ siblings.Valid d

/-- The bytes lie in the structure block at `a`. -/
structure Stored (d : Dtb) (a : ℕ) (bytes : List (BitVec 8)) : Prop where
  lower : d.getStructOffset ≤ a
  upper : a + bytes.length ≤ d.getStructOffset + d.getStructSize
  holds : HoldsAt d.memory a bytes

/-- The tree is what the memory holds. -/
structure DeviceTree.StoredIn (d : Dtb) (t : DeviceTree) : Prop where
  aligned : d.getStructOffset % 4 = 0
  size : d.getStructSize = t.bytes.length
  holds : HoldsAt d.memory d.getStructOffset t.bytes
  valid : t.root.Valid d

/-! ## Lengths -/

@[simp] theorem length_nopBytes (k : ℕ) : (nopBytes k).length = 4 * k := by
  induction k with
  | zero => rfl
  | succ k ih =>
    rw [nopBytes, List.length_append, ih]
    simp [fdtNop]
    omega

theorem length_nameBytes_mod (name : List (BitVec 8)) : (nameBytes name).length % 4 = 0 := by
  rw [nameBytes, length_append_padding]
  exact alignUp_mod _

theorem length_property (p : FdtProperty) :
    p.bytes.length = 4 * p.nops + 12 + alignUp p.value.length := by
  simp only [FdtProperty.bytes, List.length_append, length_nopBytes, fdtProp, toBeBytes,
    List.length_cons, List.length_nil]
  rw [← List.length_append, length_append_padding]
  omega

theorem length_property_mod (p : FdtProperty) : p.bytes.length % 4 = 0 := by
  have := alignUp_mod p.value.length
  rw [length_property]
  omega

theorem propertiesBytes_cons (p : FdtProperty) (ps : List FdtProperty) :
    propertiesBytes (p :: ps) = p.bytes ++ propertiesBytes ps :=
  List.flatMap_cons ..

theorem length_properties_mod (ps : List FdtProperty) : (propertiesBytes ps).length % 4 = 0 := by
  induction ps with
  | nil => rfl
  | cons p ps ih =>
    have := length_property_mod p
    rw [propertiesBytes_cons, List.length_append]
    omega

theorem length_le_propertiesBytes (ps : List FdtProperty) :
    ps.length ≤ (propertiesBytes ps).length := by
  induction ps with
  | nil => exact Nat.zero_le _
  | cons p ps ih =>
    have := length_property p
    rw [propertiesBytes_cons, List.length_append, List.length_cons]
    omega

theorem length_forest_mod : ∀ f : Forest, f.bytes.length % 4 = 0
  | .nil => rfl
  | .node _ name properties children _ siblings => by
    have h₁ := length_nameBytes_mod name
    have h₂ := length_properties_mod properties
    have h₃ := length_forest_mod children
    have h₄ := length_forest_mod siblings
    simp only [Forest.bytes, List.length_append, length_nopBytes, fdtBeginNode, fdtEndNode,
      List.length_cons, List.length_nil]
    omega

theorem length_forest_node (nops : ℕ) (name : List (BitVec 8)) (ps : List FdtProperty)
    (children : Forest) (e : ℕ) :
    (Forest.node nops name ps children e .nil).bytes.length =
      4 * nops + 4 + (nameBytes name).length + (propertiesBytes ps).length + children.bytes.length +
        4 * e + 4 := by
  simp only [Forest.bytes, List.length_append, length_nopBytes, fdtBeginNode, fdtEndNode,
    List.length_cons, List.length_nil]
  omega

/-! ## Reading tokens -/

section Tokens

variable {d : Dtb} {a : ℕ} {l l' : List (BitVec 8)}

theorem stored_append : Stored d a (l ++ l') ↔ Stored d a l ∧ Stored d (a + l.length) l' := by
  constructor
  · rintro ⟨hlo, hhi, h⟩
    rw [List.length_append] at hhi
    obtain ⟨h₁, h₂⟩ := holdsAt_append.mp h
    exact ⟨⟨hlo, by omega, h₁⟩, ⟨by omega, by omega, h₂⟩⟩
  · rintro ⟨⟨hlo, -, h₁⟩, ⟨-, hhi, h₂⟩⟩
    exact ⟨hlo, by rw [List.length_append]; omega, holdsAt_append.mpr ⟨h₁, h₂⟩⟩

/-- The structure block is smaller than 4 GiB. -/
theorem structSize_lt (d : Dtb) : d.getStructSize < 2 ^ 32 := by
  simp only [getStructSize, headerField, bytesAt]
  exact fromBeBytes_lt _ _ _ _

theorem Stored.length_lt (h : Stored d a l) : l.length < 2 ^ 32 := by
  have := structSize_lt d
  have := h.lower
  have := h.upper
  omega

theorem readNode_of_stored (h : Stored d a l) (hl : l.length = 4) : d.readNode a = some l := by
  have hlt := h.upper
  rw [readNode, if_neg (by omega), fdtTokenByte, ← hl, h.holds.bytesAt]

theorem skipPadding_eq (ha : 0 < a) : skipPadding a = alignUp a := by
  rw [skipPadding, Nat.shiftLeft_eq, Nat.shiftRight_eq_div_pow, fdtTokenByte, alignUp]
  omega

theorem alignUp_of_mod (ha : a % 4 = 0) : alignUp a = a := by
  rw [alignUp]
  omega

theorem maxIterations_pos : 0 < maxIterations := by
  rw [maxIterations]
  omega

theorem skipNop_self {token : List (BitVec 8)} (hread : d.readNode a = some token)
    (hne : token ≠ fdtNop) : d.skipNop a = .ok (some a) := by
  refine loop_done ?_ maxIterations_pos
  simp only [hread, if_neg hne]

/-- NOP tokens are skipped up to another token. -/
theorem skipNop_of_stored {k : ℕ} (h : Stored d a (nopBytes k ++ l)) (hl : l.length = 4)
    (hne : l ≠ fdtNop) : d.skipNop a = .ok (some (a + 4 * k)) := by
  have hk : 4 * k < 2 ^ 32 := by
    have := (stored_append.mp h).1.length_lt
    rwa [length_nopBytes] at this
  have hread : ∀ (k a : ℕ), Stored d a (nopBytes k ++ l) → ∀ i < k,
      d.readNode (a + 4 * i) = some fdtNop := by
    intro k
    induction k with
    | zero => omega
    | succ k ih =>
      intro a h i hi
      rw [nopBytes, List.append_assoc] at h
      obtain ⟨h₁, h₂⟩ := stored_append.mp h
      cases i with
      | zero => exact readNode_of_stored h₁ rfl
      | succ i =>
        have := ih _ h₂ i (by omega)
        rwa [show fdtNop.length = 4 from rfl, show a + 4 + 4 * i = a + 4 * (i + 1) by omega] at this
  have hlast : d.readNode (a + 4 * k) = some l := by
    have := (stored_append.mp h).2
    rw [length_nopBytes] at this
    exact readNode_of_stored this hl
  refine loop_of_steps (fun i => a + 4 * i) k 0 _ (fun i _ hi => ?_) ?_ (by rw [maxIterations]; omega)
  · simp only [hread k a h i (by omega), if_true]
    rfl
  · simp only [Nat.zero_add, hlast, if_neg hne]

/-- The end of a string. -/
theorem skipString_eq {s : List (BitVec 8)} (hs : IsString s) (hlen : s.length < 2 ^ 64)
    (h : HoldsAt d.memory a (s ++ [0#8])) : d.skipString a = .ok (a + s.length + 1) := by
  refine loop_of_steps (fun i => a + i) s.length 0 _ (fun i _ hi => ?_) ?_ hlen
  · have hbyte := h.get (i := i) (by simp; omega)
    rw [List.getElem_append_left (by omega)] at hbyte
    simp only [hbyte, ne_eq, hs _ (List.getElem_mem _), not_false_eq_true, if_true]
    rfl
  · have hbyte := h.get (i := s.length) (by simp)
    simp only [List.getElem_concat_length] at hbyte
    simp only [Nat.zero_add, hbyte, ne_eq, not_true_eq_false, if_false]

end Tokens

/-! ## Comparisons -/

section Comparisons

variable {d : Dtb} {a : ℕ}

/-- The byte behind a prefix of a stored string. -/
theorem byte_behind_prefix {s name : List (BitVec 8)} (h : HoldsAt d.memory a (s ++ [0#8]))
    (hp : name <+: s) :
    (d.memory (a + name.length) = 0#8 ∧ s = name) ∨
      ∃ c rest, d.memory (a + name.length) = c ∧ c ∈ s ∧ s = name ++ c :: rest := by
  obtain ⟨rest, rfl⟩ := hp
  rw [List.append_assoc] at h
  have hrest := (holdsAt_append.mp h).2
  cases rest with
  | nil => exact .inl ⟨hrest.1, by simp⟩
  | cons c rest => exact .inr ⟨c, rest, hrest.1, by simp, rfl⟩

/-- The name of the node is `nodeName`, or `nodeName` and an address behind `@`. -/
def isNamed (nodeName name : List (BitVec 8)) : Bool :=
  name = nodeName ∨ (nodeName ++ [0x40#8]) <+: name

theorem contains_delimiter (c : BitVec 8) :
    ([0x40] ++ [0#8]).contains c = true ↔ c = 0x40#8 ∨ c = 0#8 := by
  simp

/-- The pointer behind a name, from behind its zero. -/
theorem skipPadding_nameBytes {name : List (BitVec 8)} (ha : a % 4 = 0) :
    skipPadding (a + name.length + 1) = a + (nameBytes name).length := by
  rw [skipPadding_eq (by omega), Nat.add_assoc, alignUp_add ha, nameBytes, length_append_padding,
    List.length_append, List.length_singleton]

theorem compareString_eq {nodeName name : List (BitVec 8)} (hnode : IsString nodeName)
    (hname : IsString name) (ha : a % 4 = 0) (hlen : name.length < 2 ^ 64)
    (h : HoldsAt d.memory a (nameBytes name)) :
    d.compareString a nodeName [0x40] =
      .ok (isNamed nodeName name, a + (nameBytes name).length) := by
  have hs : HoldsAt d.memory a (name ++ [0#8]) := (holdsAt_append.mp h).1
  obtain ⟨k, hk, hp, hsame, hklen⟩ := matchBytes_string hnode hs
  -- the rest of the name is skipped from where the comparison has stopped
  have hskip : d.skipString (a + k) = .ok (a + name.length + 1) := by
    have hdrop : HoldsAt d.memory (a + k) (name.drop k ++ [0#8]) := by
      rw [← List.take_append_drop k name, List.append_assoc] at hs
      have := (holdsAt_append.mp hs).2
      rwa [List.length_take, min_eq_left hk] at this
    rw [skipString_eq (fun c hc => hname c (List.mem_of_mem_drop hc)) (by simp; omega) hdrop,
      List.length_drop]
    congr 1
    omega
  have hfound : ((matchBytes d.memory nodeName a).1 &&
      ([0x40] ++ [0#8]).contains (d.memory (a + k))) = isNamed nodeName name := by
    rw [Bool.eq_iff_iff, Bool.and_eq_true, hsame, contains_delimiter, isNamed, decide_eq_true_iff]
    constructor
    · rintro ⟨hpre, hc⟩
      rw [hklen hpre] at hc
      obtain ⟨-, heq⟩ | ⟨c, rest, hc', hmem, heq⟩ := byte_behind_prefix hs hpre
      · exact .inl heq
      · obtain hc | hc := hc
        · exact .inr ⟨rest, by rw [heq, ← hc, hc']; simp⟩
        · exact absurd (hc'.symm.trans hc) (hname c hmem)
    · rintro (rfl | hpre)
      · rw [hklen List.prefix_rfl]
        exact ⟨List.prefix_rfl, .inr (holdsAt_append.mp hs).2.1⟩
      · have hpre' : nodeName <+: name := (List.prefix_append _ _).trans hpre
        obtain ⟨rest, hrest⟩ := hpre
        rw [← hrest, List.append_assoc, List.append_assoc] at hs
        rw [hklen hpre']
        exact ⟨hpre', .inl (holdsAt_append.mp hs).2.1⟩
  rw [compareString]
  simp only [hp, hskip, Exec.ok_bind, Exec.pure_eq_ok, skipPadding_nameBytes ha, hfound]

/-- A property has the name that is asked for. -/
theorem compareNameSegment_eq {p : FdtProperty} (hp : p.Valid d) {name : List (BitVec 8)}
    (hname : IsString name) :
    d.compareNameSegment p.nameOffset name [] = some (decide (p.name = name)) := by
  obtain ⟨k, hk, hq, hsame, hklen⟩ := matchBytes_string hname hp.stored
  rw [compareNameSegment, if_neg (by have := hp.nameOffset; omega)]
  simp only [hq, Option.some.injEq]
  rw [Bool.eq_iff_iff, Bool.and_eq_true, hsame, decide_eq_true_iff]
  constructor
  · rintro ⟨hpre, hc⟩
    rw [hklen hpre] at hc
    obtain ⟨-, heq⟩ | ⟨c, rest, hc', hmem, -⟩ := byte_behind_prefix hp.stored hpre
    · exact heq
    · have hzero : d.memory (d.getStringOffset + p.nameOffset + name.length) = 0#8 := by
        simpa using hc
      exact absurd (hc'.symm.trans hzero) (hp.isString c hmem)
  · rintro rfl
    have hzero := (holdsAt_append.mp hp.stored).2.1
    rw [hklen List.prefix_rfl, hzero]
    exact ⟨List.prefix_rfl, by simp⟩

theorem isString_propAddressCells : IsString propAddressCells := by
  simp [IsString, propAddressCells]

theorem isString_propSizeCells : IsString propSizeCells := by
  simp [IsString, propSizeCells]

theorem isString_propCompatible : IsString propCompatible := by
  simp [IsString, propCompatible]

/-- The cells can be read from each property. -/
theorem checkAddressAndSizeCells_some {p : FdtProperty} (hp : p.Valid d) (cells : ℕ × ℕ)
    (ha : a < d.getStructOffset + d.getStructSize) :
    ∃ cells', d.checkAddressAndSizeCells p.nameOffset a cells = some cells' := by
  have hread : d.readNode a = some (bytesAt d.memory a fdtTokenByte) := by
    rw [readNode, if_neg (by omega)]
  rw [checkAddressAndSizeCells, compareNameSegment_eq hp isString_propAddressCells,
    compareNameSegment_eq hp isString_propSizeCells, hread]
  by_cases h₁ : p.name = propAddressCells
  · exact ⟨(_, cells.2), by simp [h₁]; rfl⟩
  · by_cases h₂ : p.name = propSizeCells
    · exact ⟨(cells.1, _), by rw [decide_eq_false h₁, decide_eq_true h₂]; rfl⟩
    · exact ⟨cells, by rw [decide_eq_false h₁, decide_eq_false h₂]; rfl⟩

/-! ## Lists of strings -/

/-- The strings of a list, up to the last zero. -/
def decodeStrings : List (BitVec 8) → List (List (BitVec 8))
  | [] => []
  | b :: bs =>
    if b = 0#8 then [] :: decodeStrings bs
    else
      match decodeStrings bs with
      | [] => []
      | s :: strings => (b :: s) :: strings

theorem decodeStrings_append {s : List (BitVec 8)} (hs : IsString s) (l : List (BitVec 8)) :
    decodeStrings (s ++ 0#8 :: l) = s :: decodeStrings l := by
  induction s with
  | nil => rfl
  | cons b bs ih =>
    have hb : b ≠ 0#8 := hs b (by simp)
    rw [List.cons_append, decodeStrings, if_neg hb, ih fun c hc => hs c (by simp [hc])]

theorem encodeStrings_cons (s : List (BitVec 8)) (strings : List (List (BitVec 8))) :
    encodeStrings (s :: strings) = s ++ 0#8 :: encodeStrings strings := by
  simp [encodeStrings]

/-- A list of strings can be read back. -/
theorem decodeStrings_encodeStrings {strings : List (List (BitVec 8))}
    (h : ∀ s ∈ strings, IsString s) : decodeStrings (encodeStrings strings) = strings := by
  induction strings with
  | nil => rfl
  | cons s strings ih =>
    rw [encodeStrings_cons, decodeStrings_append (h s (by simp)),
      ih fun s' hs' => h s' (by simp [hs'])]

/-- The comparison of a string with the next one of a list. -/
theorem matchBytes_zero {c s : List (BitVec 8)} (hc : IsString c) (hs : IsString s)
    (h : HoldsAt d.memory a (s ++ [0#8])) :
    (c = s → (matchBytes d.memory (c ++ [0#8]) a).1 = true) ∧
      (c ≠ s → ∃ k ≤ s.length, matchBytes d.memory (c ++ [0#8]) a = (false, a + k)) := by
  obtain ⟨k, hk, hp, hsame, hklen⟩ := matchBytes_string hc h
  constructor
  · rintro rfl
    rw [h.matchBytes]
  · intro hne
    rw [matchBytes_append]
    by_cases hpre : c <+: s
    · rw [if_pos (hsame.mpr hpre), hp]
      have hbyte : ¬0#8 = d.memory (a + k) := by
        rw [hklen hpre]
        obtain ⟨-, rfl⟩ | ⟨b, rest, hb, hmem, -⟩ := byte_behind_prefix h hpre
        · exact absurd rfl hne
        · rw [hb]
          exact fun h0 => hs b hmem h0.symm
      exact ⟨k, hk, by rw [matchBytes, if_neg hbyte]⟩
    · rw [if_neg (by rwa [hsame])]
      refine ⟨k, hk, Prod.ext ?_ hp⟩
      exact Bool.eq_false_iff.mpr fun h => hpre (hsame.mp h)

/-- Where the loop over a list of strings is : in front of the strings `rest`, or inside the string in
front of them, which is not the one that is looked for. -/
def AtStrings (d : Dtb) (info : DtbProperty) (rest : List (List (BitVec 8))) : ℕ × Bool → Prop
  | (p, false) => HoldsAt d.memory (info.address + p) (encodeStrings rest) ∧
      p + (encodeStrings rest).length = info.len
  | (p, true) => ∃ s, IsString s ∧ HoldsAt d.memory (info.address + p) (encodeStrings (s :: rest)) ∧
      p + (encodeStrings (s :: rest)).length = info.len

/-- How much of the loop over a list of strings is left. -/
def stringsLeft (info : DtbProperty) : ℕ × Bool → ℕ
  | (p, skip) => 2 * (info.len - p) + (!skip).toNat

/-- One iteration : it finds the string, or the string is in what is left. -/
theorem compatibleStep_spec {info : DtbProperty} {c : List (BitVec 8)} (hc : IsString c)
    {rest : List (List (BitVec 8))} (hrest : ∀ s ∈ rest, IsString s) {p : ℕ} {skip : Bool}
    (h : AtStrings d info rest (p, skip)) :
    (∃ r, d.compatibleStep info c (p, skip) = .ok (.done r) ∧ r = decide (c ∈ rest)) ∨
      ∃ p' skip' rest', d.compatibleStep info c (p, skip) = .ok (.next (p', skip')) ∧
        AtStrings d info rest' (p', skip') ∧ (∀ s ∈ rest', IsString s) ∧ (c ∈ rest' ↔ c ∈ rest) ∧
        stringsLeft info (p', skip') < stringsLeft info (p, skip) := by
  cases skip with
  | true =>
    obtain ⟨s, hs, hbytes, hlen⟩ := h
    rw [encodeStrings_cons] at hbytes hlen
    rw [List.length_append, List.length_cons] at hlen
    have hlt : p < info.len := by omega
    refine .inr ?_
    simp only [compatibleStep, if_pos hlt, if_true]
    cases s with
    | nil =>
      have hzero : d.memory (info.address + p) = 0#8 := hbytes.1
      refine ⟨p + 1, false, rest, by simp [hzero], ⟨hbytes.2, ?_⟩, hrest, Iff.rfl, ?_⟩
      · rw [List.length_nil] at hlen
        omega
      · simp [stringsLeft]
        omega
    | cons b s =>
      have hb : d.memory (info.address + p) = b := hbytes.1
      have hne : b ≠ 0#8 := hs b (by simp)
      refine ⟨p + 1, true, rest, by simp [hb, hne], ⟨s, fun x hx => hs x (by simp [hx]), ?_, ?_⟩,
        hrest, Iff.rfl, ?_⟩
      · rw [encodeStrings_cons]
        exact hbytes.2
      · rw [encodeStrings_cons, List.length_append, List.length_cons]
        rw [List.length_cons] at hlen
        omega
      · simp [stringsLeft]
        omega
  | false =>
    obtain ⟨hbytes, hlen⟩ := h
    cases rest with
    | nil =>
      have hlt : ¬p < info.len := by
        rw [encodeStrings, List.flatMap_nil, List.length_nil] at hlen
        omega
      exact .inl ⟨false, by rw [compatibleStep, if_neg hlt], by simp⟩
    | cons s rest =>
      have hs : IsString s := hrest s (by simp)
      have hbytes' := hbytes
      rw [encodeStrings_cons] at hbytes' hlen
      rw [List.length_append, List.length_cons] at hlen
      have hlt : p < info.len := by omega
      have hs0 : HoldsAt d.memory (info.address + p) (s ++ [0#8]) := by
        rw [← List.singleton_append, ← List.append_assoc] at hbytes'
        exact (holdsAt_append.mp hbytes').1
      obtain ⟨htrue, hfalse⟩ := matchBytes_zero hc hs hs0
      rw [compatibleStep, if_pos hlt, if_neg (by simp)]
      by_cases hcs : c = s
      · refine .inl ⟨true, ?_, by simp [hcs]⟩
        have hp : matchBytes d.memory (c ++ [0#8]) (info.address + p) = (true, _) :=
          Prod.ext (htrue hcs) rfl
        rw [hp]
      · obtain ⟨k, hk, hp⟩ := hfalse hcs
        refine .inr ⟨p + k, true, rest, ?_, ⟨s.drop k, ?_, ?_, ?_⟩, ?_, ?_, ?_⟩
        · rw [hp]
          simp only
          congr 3
          omega
        · exact fun x hx => hs x (List.mem_of_mem_drop hx)
        · rw [← List.take_append_drop k s, List.append_assoc] at hbytes'
          have := (holdsAt_append.mp hbytes').2
          rwa [List.length_take, min_eq_left hk, ← encodeStrings_cons, Nat.add_assoc] at this
        · rw [encodeStrings_cons, List.length_append, List.length_cons, List.length_drop]
          omega
        · exact fun x hx => hrest x (by simp [hx])
        · simp [hcs]
        · simp [stringsLeft]
          omega

/-- A loop that goes through the list like `compatibleStep` decides whether the string is in it. -/
theorem compatibleLoop_eq {info : DtbProperty} {c : List (BitVec 8)} (hc : IsString c)
    {strings : List (List (BitVec 8))} (hstrings : ∀ s ∈ strings, IsString s)
    (h : HoldsAt d.memory info.address (encodeStrings strings))
    (hlen : (encodeStrings strings).length = info.len) (hlt : info.len < 2 ^ 32)
    {body : ℕ × Bool → Exec (Iter (ℕ × Bool) Bool)}
    (hbody : ∀ rest s, (∀ x ∈ rest, IsString x) → AtStrings d info rest s →
      body s = d.compatibleStep info c s) :
    loop body Dtb.maxIterations (0, false) = .ok (decide (c ∈ strings)) := by
  have hstep : ∀ s : ℕ × Bool,
      (∃ rest, (∀ x ∈ rest, IsString x) ∧ AtStrings d info rest s ∧ (c ∈ rest ↔ c ∈ strings)) →
      (∃ r, body s = .ok (.done r) ∧ r = decide (c ∈ strings)) ∨
        ∃ s', body s = .ok (.next s') ∧
          (∃ rest, (∀ x ∈ rest, IsString x) ∧ AtStrings d info rest s' ∧ (c ∈ rest ↔ c ∈ strings)) ∧
          stringsLeft info s' < stringsLeft info s := by
    rintro ⟨p, skip⟩ ⟨rest, hrest, hat, hmem⟩
    rw [hbody rest _ hrest hat]
    obtain ⟨r, hr, rfl⟩ | ⟨p', skip', rest', hnext, hat', hrest', hmem', hleft⟩ :=
      compatibleStep_spec hc hrest hat
    · exact .inl ⟨_, hr, by simp only [hmem]⟩
    · exact .inr ⟨_, hnext, ⟨rest', hrest', hat', hmem'.trans hmem⟩, hleft⟩
  obtain ⟨r, hr, rfl⟩ := loop_returns (stringsLeft info) hstep maxIterations (0, false)
    ⟨strings, hstrings, ⟨h, by omega⟩, Iff.rfl⟩
    (by simp only [stringsLeft, maxIterations, Bool.not_false, Bool.toNat_true]; omega)
  exact hr

/-- The loop decides whether the string is in the list. -/
theorem isDeviceCompatible_eq {info : DtbProperty} {c : List (BitVec 8)} (hc : IsString c)
    {strings : List (List (BitVec 8))} (hstrings : ∀ s ∈ strings, IsString s)
    (h : HoldsAt d.memory info.address (encodeStrings strings))
    (hlen : (encodeStrings strings).length = info.len) (hlt : info.len < 2 ^ 32) :
    d.isDeviceCompatible info c = .ok (decide (c ∈ strings)) :=
  compatibleLoop_eq hc hstrings h hlen hlt fun _ _ _ _ => rfl

/-! ## What the searches decide -/

/-- The query decides by `onName` and `onProperty`, where the tree is stored. -/
structure Dtb.Query.Decides (q : Query) (d : Dtb) (onName : List (BitVec 8) → Bool)
    (onProperty : FdtProperty → Bool) : Prop where
  enter : ∀ {a : ℕ} {name : List (BitVec 8)}, IsString name → a % 4 = 0 →
    Stored d a (nameBytes name) → q.enter d a = .ok (onName name, a + (nameBytes name).length)
  property : ∀ {a : ℕ} {p : FdtProperty} (cells : ℕ × ℕ), p.Valid d → HoldsAt d.memory a p.value →
    q.property d p.nameOffset ⟨a, cells.1, cells.2, p.value.length⟩ = .ok (some (onProperty p))

theorem Stored.name_length_lt {name : List (BitVec 8)} (h : Stored d a (nameBytes name)) :
    name.length < 2 ^ 64 := by
  have := h.length_lt
  rw [nameBytes, List.length_append, List.length_append] at this
  omega

/-- A search by name looks at the names only. -/
theorem nodeNamed_decides {nodeName : List (BitVec 8)} (hnode : IsString nodeName) :
    (nodeNamed nodeName).Decides d (isNamed nodeName) (fun _ => false) where
  enter hname ha h := compareString_eq hnode hname ha h.name_length_lt h.holds
  property _ _ _ := rfl

/-- The property is `compatible`, and has the string. -/
def hasString (c : List (BitVec 8)) (p : FdtProperty) : Bool :=
  p.name = propCompatible ∧ c ∈ decodeStrings p.value

/-- A search for a compatible device looks at the properties only. -/
theorem nodeCompatible_decides {c : List (BitVec 8)} (hc : IsString c) :
    (nodeCompatible c).Decides d (fun _ => false) (hasString c) where
  enter {a name} hname ha h := by
    have hs : HoldsAt d.memory a (name ++ [0#8]) := (holdsAt_append.mp h.holds).1
    simp only [nodeCompatible, skipString_eq hname h.name_length_lt hs, Exec.ok_bind,
      Exec.pure_eq_ok, skipPadding_nameBytes ha]
  property {a p} cells hp h := by
    simp only [nodeCompatible, compareNameSegment_eq hp isString_propCompatible]
    by_cases hname : p.name = propCompatible
    · obtain ⟨strings, hstrings, hvalue⟩ := hp.strings hname
      rw [hvalue] at h
      have heq : d.isDeviceCompatible ⟨a, cells.1, cells.2, p.value.length⟩ c =
          .ok (decide (c ∈ strings)) :=
        isDeviceCompatible_eq hc hstrings h (by rw [hvalue]) hp.length32
      simp only [hname, decide_true, heq, Exec.ok_bind, Exec.pure_eq_ok]
      simp [hname, hasString, hvalue, decodeStrings_encodeStrings hstrings]
    · simp [hname, hasString]

end Comparisons

/-! ## Trees that are stored -/

/-- The tree behind a header and an empty memory reservation map, with the strings behind it. -/
def DeviceTree.blob (t : DeviceTree) (strings : List (BitVec 8)) : List (BitVec 8) :=
  (toBeBytes 0xd00dfeed ++ toBeBytes (56 + t.bytes.length + strings.length)) ++ (toBeBytes 56 ++
    (toBeBytes (56 + t.bytes.length) ++ ((toBeBytes 40 ++ (toBeBytes 17 ++ (toBeBytes 16 ++
      toBeBytes 0))) ++ (toBeBytes strings.length ++ (toBeBytes t.bytes.length ++
        (List.replicate 16 0#8 ++ (t.bytes ++ strings)))))))

/-- The memory with the flattened tree at `header`. -/
def DeviceTree.flatten (t : DeviceTree) (strings : List (BitVec 8)) (header : ℕ) : Dtb where
  memory a := (t.blob strings).getD (a - header) 0#8
  header := header

section Flatten

variable (t : DeviceTree) (strings : List (BitVec 8)) (header : ℕ)

theorem flatten_holds : HoldsAt (t.flatten strings header).memory header (t.blob strings) := by
  refine holdsAt_of_get fun i hi => ?_
  simp [DeviceTree.flatten, hi]

theorem headerField_eq {d : Dtb} {offset n : ℕ}
    (h : HoldsAt d.memory (d.header + offset) (toBeBytes n)) (hn : n < 2 ^ 32) :
    d.headerField offset = n := by
  rw [headerField, show 4 = (toBeBytes n).length from rfl, h.bytesAt, fromBeBytes_toBeBytes hn]

/-- A flattened tree is stored, if it fits in 4 GiB and its names and properties are valid. -/
theorem flatten_storedIn (hsize : 56 + t.bytes.length + strings.length < 2 ^ 32)
    (halign : header % 4 = 0) (hvalid : t.root.Valid (t.flatten strings header)) :
    t.StoredIn (t.flatten strings header) := by
  have h := flatten_holds t strings header
  obtain ⟨-, h⟩ := holdsAt_append.mp h
  obtain ⟨h₁, h⟩ := holdsAt_append.mp h
  obtain ⟨-, h⟩ := holdsAt_append.mp h
  obtain ⟨-, h⟩ := holdsAt_append.mp h
  obtain ⟨-, h⟩ := holdsAt_append.mp h
  obtain ⟨h₂, h⟩ := holdsAt_append.mp h
  obtain ⟨-, h⟩ := holdsAt_append.mp h
  obtain ⟨h₃, -⟩ := holdsAt_append.mp h
  have hfield : (t.flatten strings header).headerField 8 = 56 := headerField_eq h₁ (by omega)
  have hoffset : (t.flatten strings header).getStructOffset = header + 56 := by
    rw [getStructOffset, hfield, DeviceTree.flatten]
  have hstruct : (t.flatten strings header).getStructSize = t.bytes.length :=
    headerField_eq h₂ (by omega)
  refine ⟨by omega, hstruct, ?_, hvalid⟩
  rw [hoffset]
  exact h₃

end Flatten

section Example

/-- A device `a` that is compatible with `c`. -/
def sampleDevice (siblings : Forest) : Forest :=
  .node 0 [0x61#8] [⟨1, 0, propCompatible, encodeStrings [[0x63#8]]⟩] .nil 0 siblings

/-- Two devices `a`, with another node `b` between them. -/
def sampleTree : DeviceTree where
  nops := 0
  name := []
  properties := []
  children := sampleDevice (.node 0 [0x62#8] [] .nil 0 (sampleDevice .nil))
  endNops := 0
  finalNops := 0

def sampleStrings : List (BitVec 8) := propCompatible ++ [0#8]

def sampleDtb : Dtb := sampleTree.flatten sampleStrings 4096

theorem sampleProperty_valid :
    FdtProperty.Valid sampleDtb ⟨1, 0, propCompatible, encodeStrings [[0x63#8]]⟩ where
  nameOffset := by decide
  offset32 := by decide
  length32 := by decide
  isString := isString_propCompatible
  stored := by decide +kernel
  strings _ := ⟨[[0x63#8]], by simp [IsString], rfl⟩

theorem sampleTree_storedIn : sampleTree.StoredIn sampleDtb := by
  refine flatten_storedIn sampleTree sampleStrings 4096 (by decide) (by decide) ?_
  have hps : ∀ p ∈ [FdtProperty.mk 1 0 propCompatible (encodeStrings [[0x63#8]])],
      p.Valid sampleDtb := by
    rintro p hp
    rw [List.mem_singleton.mp hp]
    exact sampleProperty_valid
  have hname : IsString [0x61#8] := by simp [IsString]
  exact ⟨by simp [IsString, sampleTree], by simp [sampleTree], ⟨hname, hps, trivial,
    by simp [IsString], by simp, trivial, hname, hps, trivial, trivial⟩, trivial⟩

end Example

/-! ## The search of a tree -/

section Search

variable {d : Dtb} {a k : ℕ}

/-- The token behind some NOP tokens, and what is behind it. -/
theorem token_of_stored {token rest : List (BitVec 8)} (h : Stored d a (nopBytes k ++ (token ++ rest)))
    (hlen : token.length = 4) (hne : token ≠ fdtNop) :
    d.skipNop a = .ok (some (a + 4 * k)) ∧ d.readNode (a + 4 * k) = some token ∧
      Stored d (a + 4 * k + 4) rest := by
  have hfirst := h
  rw [← List.append_assoc] at hfirst
  have hrest := (stored_append.mp h).2
  rw [length_nopBytes] at hrest
  obtain ⟨htoken, hrest⟩ := stored_append.mp hrest
  rw [hlen] at hrest
  exact ⟨skipNop_of_stored (stored_append.mp hfirst).1 hlen hne, readNode_of_stored htoken hlen, hrest⟩

/-- The node is one that the search looks for. -/
def TreeNode.found (onName : List (BitVec 8) → Bool) (onProperty : FdtProperty → Bool)
    (node : TreeNode) : Bool :=
  onName node.name || node.properties.any onProperty

/-- The cells behind a property that begins at `a`. -/
def FdtProperty.cellsBehind (d : Dtb) (a : ℕ) (p : FdtProperty) (cells : ℕ × ℕ) : ℕ × ℕ :=
  (d.checkAddressAndSizeCells p.nameOffset (a + 4 * p.nops + 12) cells).getD cells

/-- The cells behind properties that begin at `a`, up to the first one that is looked for. -/
def cellsUpTo (d : Dtb) (onProperty : FdtProperty → Bool) : ℕ → List FdtProperty → ℕ × ℕ → ℕ × ℕ
  | _, [], cells => cells
  | a, p :: ps, cells =>
    if onProperty p then p.cellsBehind d a cells
    else cellsUpTo d onProperty (a + p.bytes.length) ps (p.cellsBehind d a cells)

/-- The first node of a forest that the search looks for, with the cells that the search has there. Those
of a node hold for its children, and not for its siblings. -/
def Forest.firstNode (d : Dtb) (onName : List (BitVec 8) → Bool) (onProperty : FdtProperty → Bool) :
    ℕ → ℕ × ℕ → Forest → Option DtbNode
  | _, _, .nil => none
  | a, cells, .node nops name ps children e siblings =>
    let own := cellsUpTo d onProperty (nameEnd a nops name) ps cells
    if onName name then some ⟨nameEnd a nops name, cells.1, cells.2⟩
    else if ps.any onProperty then some ⟨nameEnd a nops name, own.1, own.2⟩
    else (children.firstNode d onName onProperty (childrenAt a nops name ps) own).or
      (siblings.firstNode d onName onProperty (siblingsAt a nops name ps children e) cells)

/-- The search of a part of the tree returns `node`, or the end of that part. -/
def Finds (x : Exec Outcome) (node : Option DtbNode) (endAt : ℕ) : Prop :=
  match node with
  | some n => x = .ok (.found n)
  | none => x = .ok (.notFound endAt)

variable {q : Query} {onName : List (BitVec 8) → Bool} {onProperty : FdtProperty → Bool}

/-- The cells can be read from each property. -/
theorem checkAddressAndSizeCells_eq {p : FdtProperty} (hp : p.Valid d) (cells : ℕ × ℕ)
    (ha : a + 4 * p.nops + 12 < d.getStructOffset + d.getStructSize) :
    d.checkAddressAndSizeCells p.nameOffset (a + 4 * p.nops + 12) cells =
      some (p.cellsBehind d a cells) := by
  obtain ⟨cells', hcells⟩ := checkAddressAndSizeCells_some hp cells ha
  rw [FdtProperty.cellsBehind, hcells, Option.getD_some]

/-- It is the first node in document order. -/
theorem Forest.map_address_firstNode : ∀ (a : ℕ) (cells : ℕ × ℕ) (f : Forest),
    (f.firstNode d onName onProperty a cells).map DtbNode.address =
      ((f.nodes a).find? (TreeNode.found onName onProperty)).map TreeNode.address
  | _, _, .nil => rfl
  | a, cells, .node nops name ps children e siblings => by
    rw [Forest.firstNode, Forest.nodes, List.find?_cons, TreeNode.found]
    cases onName name with
    | true => rfl
    | false =>
      cases ps.any onProperty with
      | true => rfl
      | false =>
        rw [Bool.or_false, if_neg (by simp), if_neg (by simp), Option.map_or,
          children.map_address_firstNode, siblings.map_address_firstNode, List.find?_append,
          Option.map_or]

/-- One property : the search ends with the node, or goes on behind the property. -/
theorem searchBody_property (hq : q.Decides d onName onProperty) {p : FdtProperty} (hp : p.Valid d)
    (ha : a % 4 = 0) (h : Stored d a p.bytes)
    (hend : a + p.bytes.length < d.getStructOffset + d.getStructSize) {pointer : ℕ}
    (hpointer : skipPadding pointer = a) (n address : ℕ) (cells : ℕ × ℕ) :
    ∃ pointer', skipPadding pointer' = a + p.bytes.length ∧
      d.searchBody q (n + 1) address pointer cells =
        if onProperty p then
          .ok (.found ⟨address, (p.cellsBehind d a cells).1, (p.cellsBehind d a cells).2⟩)
        else d.searchBody q n address pointer' (p.cellsBehind d a cells) := by
  obtain ⟨hskip, htoken, h⟩ := token_of_stored h rfl (by decide)
  obtain ⟨hlen, h⟩ := stored_append.mp h
  obtain ⟨hname, h⟩ := stored_append.mp h
  have hlen' := readNode_of_stored hlen rfl
  have hname' := readNode_of_stored hname rfl
  rw [show (toBeBytes p.value.length).length = 4 from rfl] at h hname'
  rw [show (toBeBytes p.nameOffset).length = 4 from rfl] at h
  have hbytes := length_property p
  have hcells := checkAddressAndSizeCells_eq (a := a) hp cells (by omega)
  refine ⟨a + 4 * p.nops + 4 + 4 + 4 + p.value.length, ?_, ?_⟩
  · rw [skipPadding_eq (by omega), alignUp_add (by omega)]
    omega
  · have hprop := hq.property (p.cellsBehind d a cells) hp (holdsAt_append.mp h.holds).1
    rw [searchBody, hpointer]
    simp only [hskip, Exec.ok_bind, htoken, fdtTokenByte, hlen', hname',
      fromBeBytes_toBeBytes hp.length32, fromBeBytes_toBeBytes hp.offset32, hcells, hprop]
    rw [if_neg (by decide), if_neg (by decide), if_pos trivial]
    cases onProperty p with
    | true => rfl
    | false => rfl

/-- The properties of a node. -/
theorem searchBody_properties (hq : q.Decides d onName onProperty) (n address : ℕ) :
    ∀ {ps : List FdtProperty} {a pointer : ℕ} (cells : ℕ × ℕ), (∀ p ∈ ps, p.Valid d) → a % 4 = 0 →
      Stored d a (propertiesBytes ps) →
      a + (propertiesBytes ps).length < d.getStructOffset + d.getStructSize → skipPadding pointer = a →
      ∃ pointer', skipPadding pointer' = a + (propertiesBytes ps).length ∧
        d.searchBody q (n + ps.length) address pointer cells =
          if ps.any onProperty then .ok (.found ⟨address, (cellsUpTo d onProperty a ps cells).1,
            (cellsUpTo d onProperty a ps cells).2⟩)
          else d.searchBody q n address pointer' (cellsUpTo d onProperty a ps cells)
  | [], _, pointer, cells, _, _, _, _, hpointer => ⟨pointer, hpointer, rfl⟩
  | p :: ps, a, pointer, cells, hvalid, ha, h, hend, hpointer => by
    rw [propertiesBytes_cons, List.length_append] at hend
    rw [propertiesBytes_cons] at h ⊢
    obtain ⟨hfirst, hrest⟩ := stored_append.mp h
    obtain ⟨pointer₁, hpointer₁, hstep⟩ := searchBody_property hq (hvalid p (by simp)) ha
      hfirst (by omega) hpointer (n + ps.length) address cells
    obtain ⟨pointer₂, hpointer₂, hrun⟩ := searchBody_properties hq n address (p.cellsBehind d a cells)
      (fun p' hp' => hvalid p' (by simp [hp'])) (by have := length_property_mod p; omega) hrest
      (by omega) hpointer₁
    rw [List.length_cons, ← Nat.add_assoc, hstep, List.any_cons, cellsUpTo]
    refine ⟨pointer₂, by rw [hpointer₂, List.length_append, Nat.add_assoc], ?_⟩
    cases onProperty p with
    | true => rfl
    | false => exact hrun

/-- A node, given the search of its children. -/
theorem searchTree_of_children (hq : q.Decides d onName onProperty) {children : Forest} {e : ℕ}
    (hchildren : ∀ {a pointer n : ℕ} (address : ℕ) (cells : ℕ × ℕ), a % 4 = 0 →
      Stored d a (children.bytes ++ (nopBytes e ++ fdtEndNode)) → skipPadding pointer = a →
      children.bytes.length < n →
      Finds (d.searchBody q n address pointer cells)
        (children.firstNode d onName onProperty a cells) (a + children.bytes.length + 4 * e + 4))
    {nops : ℕ} {name : List (BitVec 8)} {ps : List FdtProperty} (hname : IsString name)
    (hps : ∀ p ∈ ps, p.Valid d) (ha : a % 4 = 0)
    (h : Stored d a (Forest.node nops name ps children e .nil).bytes) {n : ℕ}
    (hn : (Forest.node nops name ps children e .nil).bytes.length ≤ n) (cells : ℕ × ℕ) :
    Finds (d.searchTree q n a cells)
      ((Forest.node nops name ps children e .nil).firstNode d onName onProperty a cells)
      (siblingsAt a nops name ps children e) := by
  have hlen := length_forest_node nops name ps children e
  have hpslen := length_le_propertiesBytes ps
  have hnmod := length_nameBytes_mod name
  have hpsmod := length_properties_mod ps
  obtain ⟨hskip, hread, h⟩ := token_of_stored h rfl (by decide)
  obtain ⟨hbytes, h⟩ := stored_append.mp h
  obtain ⟨hprops, h⟩ := stored_append.mp h
  rw [Forest.bytes, List.append_nil] at h
  have hlast := h.upper
  rw [List.length_append, List.length_append, length_nopBytes, show fdtEndNode.length = 4 from rfl]
    at hlast
  have hnameEnd : a + 4 * nops + 4 + (nameBytes name).length = nameEnd a nops name := by
    rw [nameEnd, length_nopBytes]
  have hbegin : skipPadding (nameEnd a nops name) = nameEnd a nops name := by
    rw [skipPadding_eq (by omega), alignUp_of_mod (by omega)]
  obtain ⟨m, rfl⟩ : ∃ m, n = m + ps.length + 1 := ⟨n - ps.length - 1, by omega⟩
  obtain ⟨pointer', hpointer', hrun⟩ := searchBody_properties hq m
    (nameEnd a nops name) cells hps (by omega) (hnameEnd ▸ hprops) (by omega) hbegin
  rw [hnameEnd] at h
  have hfind := hchildren (n := m) (nameEnd a nops name)
    (cellsUpTo d onProperty (nameEnd a nops name) ps cells) (by omega) h hpointer' (by omega)
  rw [searchTree, Forest.firstNode, Forest.firstNode, Option.or_none]
  simp only [hskip, Exec.ok_bind, hread, ne_eq, not_true_eq_false, if_false,
    hq.enter hname (a := a + 4 * nops + fdtTokenByte) (by rw [fdtTokenByte]; omega) hbytes]
  rw [show a + 4 * nops + fdtTokenByte + (nameBytes name).length = nameEnd a nops name from hnameEnd]
  cases onName name with
  | true => rfl
  | false =>
    rw [if_neg (by simp), if_neg (by simp), hrun]
    cases hany : ps.any onProperty with
    | true => rfl
    | false =>
      rw [if_neg (by simp), if_neg (by simp), siblingsAt, length_nopBytes, childrenAt]
      exact hfind

/-- The NOP tokens in front of a node may have been skipped before. -/
theorem searchTree_skipNop {p : ℕ} {token : List (BitVec 8)} (hskip : d.skipNop a = .ok (some p))
    (hread : d.readNode p = some token) (hne : token ≠ fdtNop) (n : ℕ) (cells : ℕ × ℕ) :
    d.searchTree q n p cells = d.searchTree q n a cells := by
  cases n with
  | zero => rw [searchTree, searchTree]
  | succ n => rw [searchTree, searchTree, skipNop_self hread hne, hskip]

/-- What the forest is made of : its first node, and the siblings behind it. -/
theorem Forest.bytes_node (nops : ℕ) (name : List (BitVec 8)) (ps : List FdtProperty)
    (children : Forest) (e : ℕ) (siblings : Forest) :
    (Forest.node nops name ps children e siblings).bytes =
      (Forest.node nops name ps children e .nil).bytes ++ siblings.bytes := by
  simp only [Forest.bytes, List.append_nil, List.append_assoc]

theorem Forest.firstNode_node (a nops : ℕ) (name : List (BitVec 8)) (ps : List FdtProperty)
    (children : Forest) (e : ℕ) (siblings : Forest) (cells : ℕ × ℕ) :
    (Forest.node nops name ps children e siblings).firstNode d onName onProperty a cells =
      ((Forest.node nops name ps children e .nil).firstNode d onName onProperty a cells).or
        (siblings.firstNode d onName onProperty (siblingsAt a nops name ps children e) cells) := by
  simp only [Forest.firstNode, Option.or_none]
  split_ifs
  · rfl
  · rfl
  · rfl

theorem Forest.nodes_node (a nops : ℕ) (name : List (BitVec 8)) (ps : List FdtProperty)
    (children : Forest) (e : ℕ) (siblings : Forest) :
    (Forest.node nops name ps children e siblings).nodes a =
      (Forest.node nops name ps children e .nil).nodes a ++
        siblings.nodes (siblingsAt a nops name ps children e) := by
  simp only [Forest.nodes, List.append_nil, List.cons_append]

theorem siblingsAt_eq (a nops : ℕ) (name : List (BitVec 8)) (ps : List FdtProperty)
    (children : Forest) (e : ℕ) :
    siblingsAt a nops name ps children e =
      a + (Forest.node nops name ps children e .nil).bytes.length := by
  rw [length_forest_node, siblingsAt, childrenAt, nameEnd, length_nopBytes, length_nopBytes]
  omega

/-- The loop over what is in a node : the nodes of the forest up to the end of the node. -/
theorem searchBody_forest (hq : q.Decides d onName onProperty) (e : ℕ) :
    ∀ {f : Forest}, f.Valid d → ∀ {a pointer n : ℕ} (address : ℕ) (cells : ℕ × ℕ), a % 4 = 0 →
      Stored d a (f.bytes ++ (nopBytes e ++ fdtEndNode)) → skipPadding pointer = a →
      f.bytes.length < n →
      Finds (d.searchBody q n address pointer cells) (f.firstNode d onName onProperty a cells)
        (a + f.bytes.length + 4 * e + 4)
  | .nil, _, a, pointer, n + 1, address, cells, ha, h, hpointer, hn => by
    rw [Forest.bytes, List.nil_append] at h
    rw [← List.append_nil fdtEndNode] at h
    obtain ⟨hskip, hread, -⟩ := token_of_stored h rfl (by decide)
    rw [searchBody, hpointer]
    simp only [hskip, Exec.ok_bind, hread]
    rw [if_neg (by decide), if_pos trivial]
    rfl
  | .node nops name ps children e' siblings, hvalid, a, pointer, n + 1, address, cells, ha, h,
      hpointer, hn => by
    obtain ⟨hname, hps, hchildren, hsiblings⟩ := hvalid
    rw [Forest.bytes_node, List.append_assoc] at h
    rw [Forest.bytes_node, List.length_append] at hn
    obtain ⟨hfirst, hrest⟩ := stored_append.mp h
    have hmod := length_forest_mod (.node nops name ps children e' .nil)
    have hlen := length_forest_node nops name ps children e'
    have hfind := searchTree_of_children hq (searchBody_forest hq e' hchildren) hname hps ha hfirst
      (n := n) (by omega) cells
    rw [siblingsAt_eq] at hfind
    have hnext : skipPadding (a + (Forest.node nops name ps children e' .nil).bytes.length) =
        a + (Forest.node nops name ps children e' .nil).bytes.length := by
      rw [skipPadding_eq (by omega), alignUp_of_mod (by omega)]
    have hfind' := searchBody_forest hq e hsiblings (n := n) address cells (by omega) hrest hnext
      (by omega)
    obtain ⟨hskip, hread, -⟩ := token_of_stored hfirst rfl (by decide)
    rw [searchBody, hpointer, Forest.firstNode_node, siblingsAt_eq]
    simp only [hskip, Exec.ok_bind, hread]
    rw [if_pos trivial, searchTree_skipNop hskip hread (by decide)]
    cases hnode : (Forest.node nops name ps children e' .nil).firstNode d onName onProperty a
        cells with
    | some node =>
      rw [hnode] at hfind
      rw [show d.searchTree q n a cells = _ from hfind]
      rfl
    | none =>
      rw [hnode] at hfind
      rw [show d.searchTree q n a cells = _ from hfind, Option.none_or,
        Forest.bytes_node nops name ps children e' siblings, List.length_append, ← Nat.add_assoc]
      exact hfind'

/-- The search of a node, its properties and its children. -/
theorem searchTree_node (hq : q.Decides d onName onProperty) {nops : ℕ} {name : List (BitVec 8)}
    {ps : List FdtProperty} {children : Forest} {e : ℕ}
    (hvalid : (Forest.node nops name ps children e .nil).Valid d) (ha : a % 4 = 0)
    (h : Stored d a (Forest.node nops name ps children e .nil).bytes) (cells : ℕ × ℕ) :
    Finds (d.searchTree q maxIterations a cells)
      ((Forest.node nops name ps children e .nil).firstNode d onName onProperty a cells)
      (a + (Forest.node nops name ps children e .nil).bytes.length) := by
  obtain ⟨hname, hps, hchildren, -⟩ := hvalid
  have hn : (Forest.node nops name ps children e .nil).bytes.length ≤ maxIterations := by
    have := h.length_lt
    rw [maxIterations]
    omega
  rw [← siblingsAt_eq]
  exact searchTree_of_children hq (searchBody_forest hq e hchildren) hname hps ha h hn cells

theorem searchStep_found {cells : ℕ × ℕ} {node : DtbNode}
    (ha : a < d.getStructOffset + d.getStructSize)
    (h : d.searchTree q maxIterations a cells = .ok (.found node)) :
    d.searchStep q cells a = .ok (.done (some node)) := by
  have hread : ¬d.readNode a = none := by
    rw [readNode, if_neg (by omega)]
    simp
  rw [searchStep, if_neg hread, h]
  rfl

theorem searchStep_notFound {cells : ℕ × ℕ} {p : ℕ} (ha : a < d.getStructOffset + d.getStructSize)
    (h : d.searchTree q maxIterations a cells = .ok (.notFound p)) :
    d.searchStep q cells a = .ok (.next (p + 4)) := by
  have hread : ¬d.readNode a = none := by
    rw [readNode, if_neg (by omega)]
    simp
  rw [searchStep, if_neg hread, h]
  rfl

/-- The search ends at a token that does not begin a node. -/
theorem searchStep_token {token rest : List (BitVec 8)}
    (h : Stored d a (nopBytes k ++ (token ++ rest))) (hlen : token.length = 4) (hnop : token ≠ fdtNop)
    (hbegin : token ≠ fdtBeginNode) (cells : ℕ × ℕ) : d.searchStep q cells a = .ok (.done none) := by
  obtain ⟨hskip, hread, -⟩ := token_of_stored h hlen hnop
  obtain ⟨n, hn⟩ := Nat.exists_eq_succ_of_ne_zero maxIterations_pos.ne'
  have hfailed : d.searchTree q maxIterations a cells = .ok .failed := by
    rw [hn, searchTree]
    simp only [hskip, Exec.ok_bind, hread, ne_eq, Option.some.injEq, hbegin, not_false_eq_true,
      if_true]
    rfl
  rw [searchStep, hfailed]
  split_ifs
  · rfl
  · rfl

/-- The search ends at the end of the tree. It skips a token in front of it, which is the end itself if
there is no NOP token. -/
theorem searchStep_end (h : Stored d a (nopBytes k ++ fdtEnd))
    (hend : d.getStructOffset + d.getStructSize = a + 4 * k + 4) (cells : ℕ × ℕ) :
    d.searchStep q cells (a + 4) = .ok (.done none) := by
  cases k with
  | zero =>
    have hread : d.readNode (a + 4) = none := by
      rw [readNode, if_pos (by omega)]
    rw [searchStep, if_pos hread]
  | succ k =>
    rw [nopBytes, List.append_assoc, ← List.append_nil fdtEnd] at h
    have hrest := (stored_append.mp h).2
    exact searchStep_token hrest rfl (by decide) (by decide) cells

/-- The nodes of the tree in document order. -/
def DeviceTree.nodes (d : Dtb) (t : DeviceTree) : List TreeNode :=
  t.root.nodes d.getStructOffset

/-- A search from the start returns the first node that it looks for. -/
theorem search_start (hq : q.Decides d onName onProperty) {t : DeviceTree} (h : t.StoredIn d) :
    d.search q none = .ok (t.root.firstNode d onName onProperty d.getStructOffset
      (defaultAddressCells, defaultSizeCells)) := by
  have hstored : Stored d d.getStructOffset t.bytes := ⟨le_rfl, by rw [h.size], h.holds⟩
  obtain ⟨hroot, hend⟩ := stored_append.mp hstored
  have hlen : t.root.bytes.length + 4 * t.finalNops + 4 = d.getStructSize := by
    rw [h.size, DeviceTree.bytes, List.length_append, List.length_append, length_nopBytes, fdtEnd]
    rfl
  have hfind := searchTree_node hq h.valid h.aligned hroot (defaultAddressCells, defaultSizeCells)
  rw [search, searchLoop]
  cases hnode : t.root.firstNode d onName onProperty d.getStructOffset
      (defaultAddressCells, defaultSizeCells) with
  | some node =>
    rw [DeviceTree.root] at hnode
    rw [hnode] at hfind
    exact loop_done (searchStep_found (by omega) hfind) maxIterations_pos
  | none =>
    rw [DeviceTree.root] at hnode
    rw [hnode] at hfind
    obtain ⟨n, hn⟩ : ∃ n, maxIterations = n + 1 + 1 := ⟨2 ^ 64 - 2, rfl⟩
    rw [hn, loop_next (searchStep_notFound (by omega) hfind)]
    exact loop_done (searchStep_end hend (by omega) _) (Nat.succ_pos n)

/-- It is the first one in document order. -/
theorem search_start_address (hq : q.Decides d onName onProperty) {t : DeviceTree}
    (h : t.StoredIn d) :
    ∃ r, d.search q none = .ok r ∧
      r.map DtbNode.address =
        ((t.nodes d).find? (TreeNode.found onName onProperty)).map TreeNode.address :=
  ⟨_, search_start hq h, Forest.map_address_firstNode ..⟩

/-- The search returns the first of the nodes that `p` holds of, and nothing if there is none. -/
def ReturnsFirst (x : Exec (Option DtbNode)) (p : TreeNode → Bool) (nodes : List TreeNode) : Prop :=
  ∃ r, x = .ok r ∧ r.map DtbNode.address = (nodes.find? p).map TreeNode.address ∧
    (r = none ↔ ∀ node ∈ nodes, ¬p node)

theorem returnsFirst_of_map {x : Exec (Option DtbNode)} {p : TreeNode → Bool} {nodes : List TreeNode}
    (h : ∃ r, x = .ok r ∧ r.map DtbNode.address = (nodes.find? p).map TreeNode.address) :
    ReturnsFirst x p nodes := by
  obtain ⟨r, hr, hmap⟩ := h
  refine ⟨r, hr, hmap, ?_⟩
  rw [← Option.map_eq_none_iff (f := DtbNode.address), hmap, Option.map_eq_none_iff,
    List.find?_eq_none]

theorem found_onName (onName : List (BitVec 8) → Bool) :
    TreeNode.found onName (fun _ => false) = fun node => onName node.name := by
  funext node
  simp [TreeNode.found]

theorem found_onProperty (onProperty : FdtProperty → Bool) :
    TreeNode.found (fun _ => false) onProperty = fun node => node.properties.any onProperty := by
  funext node
  simp [TreeNode.found]

/-- Both searches from the start return the first node in document order that matches. -/
theorem search_from_start {t : DeviceTree} (h : t.StoredIn d) {name compatible : List (BitVec 8)}
    (hname : IsString name) (hcompatible : IsString compatible) :
    ReturnsFirst (d.searchNode name none) (fun node => isNamed name node.name) (t.nodes d) ∧
      ReturnsFirst (d.searchNodeByCompatible compatible none)
        (fun node => node.properties.any (hasString compatible)) (t.nodes d) := by
  constructor
  · rw [← found_onName]
    exact returnsFirst_of_map (search_start_address (nodeNamed_decides hname) h)
  · rw [← found_onProperty]
    exact returnsFirst_of_map (search_start_address (nodeCompatible_decides hcompatible) h)

theorem search_from_start_sample :
    ReturnsFirst (sampleDtb.searchNode [0x61#8] none) (fun node => isNamed [0x61#8] node.name)
        (sampleTree.nodes sampleDtb) ∧
      ReturnsFirst (sampleDtb.searchNodeByCompatible [0x63#8] none)
        (fun node => node.properties.any (hasString [0x63#8])) (sampleTree.nodes sampleDtb) :=
  search_from_start sampleTree_storedIn (by simp [IsString]) (by simp [IsString])

end Search

end MiniVisor
