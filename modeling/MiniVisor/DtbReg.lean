import MiniVisor.DtbProperty

/-!
# The cells of `reg`

The parent of a node says how many cells the addresses and sizes in its `reg` have, and there are defaults
where it does not. `DeviceTree.withParents` are the nodes with these cells.

The code has cells of its own. A search begins with the defaults or with the cells of the node it goes on
behind, and carries those of all ancestors down to a node (`DeviceTree.Carries`). A node that is found by
`compatible` has read its own ones as well, and so has the lookup of `reg`, up to there (`cellsInForce`).
`readRegProperty_iff` says when the pairs come out right nevertheless.
-/

namespace MiniVisor

open Machine Dtb

/-! ## Cells -/

/-- The property has a number up to 2, if it is `#address-cells` or `#size-cells`. -/
def FdtProperty.CellsValid (p : FdtProperty) : Prop :=
  p.name = propAddressCells ∨ p.name = propSizeCells → ∃ v ≤ 2, p.value = toBeBytes v

/-- The cells behind a property. -/
def FdtProperty.cells (p : FdtProperty) (cells : ℕ × ℕ) : ℕ × ℕ :=
  if p.name = propAddressCells then (fromBeBytes p.value, cells.2)
  else if p.name = propSizeCells then (cells.1, fromBeBytes p.value)
  else cells

/-- The cells behind properties, up to the first one that is looked for. -/
def cellsThrough (found : FdtProperty → Bool) : List FdtProperty → ℕ × ℕ → ℕ × ℕ
  | [], cells => cells
  | p :: ps, cells => if found p then p.cells cells else cellsThrough found ps (p.cells cells)

def defaultCells : ℕ × ℕ := (defaultAddressCells, defaultSizeCells)

/-- The cells for the children of a node with these properties. -/
def declaredCells (ps : List FdtProperty) (_ : ℕ × ℕ) : ℕ × ℕ :=
  cellsThrough (fun _ => false) ps defaultCells

/-- What a search has for them, that has `cells` for the node. -/
def carriedCells (ps : List FdtProperty) (cells : ℕ × ℕ) : ℕ × ℕ :=
  cellsThrough (fun _ => false) ps cells

/-- The nodes of a forest with their cells, where `child` says which ones the children of a node have. -/
def Forest.nodesWith (child : List FdtProperty → ℕ × ℕ → ℕ × ℕ) :
    ℕ → ℕ × ℕ → Forest → List (TreeNode × (ℕ × ℕ))
  | _, _, .nil => []
  | a, cells, .node nops name ps children e siblings =>
    (⟨nameEnd a nops name, name, ps⟩, cells) ::
      (children.nodesWith child (childrenAt a nops name ps) (child ps cells) ++
        siblings.nodesWith child (siblingsAt a nops name ps children e) cells)

/-- The nodes of a tree, each with the cells that its parent says. -/
def DeviceTree.withParents (d : Dtb) (t : DeviceTree) : List (TreeNode × (ℕ × ℕ)) :=
  t.root.nodesWith declaredCells d.getStructOffset defaultCells

def Item.nodesWith (a : ℕ) (cells : ℕ × ℕ) : Item → List (TreeNode × (ℕ × ℕ))
  | .tree nops name ps children e =>
    (Forest.node nops name ps children e .nil).nodesWith carriedCells a cells
  | .close _ => []

/-- The nodes of items, with the cells that a search has there which begins with `cells`. -/
def itemsNodesWith (cells : ℕ × ℕ) : ℕ → List Item → List (TreeNode × (ℕ × ℕ))
  | _, [] => []
  | a, x :: xs => x.nodesWith a cells ++ itemsNodesWith cells (a + x.bytes.length) xs

/-- A search that begins behind `currentNode` has these cells at the node. -/
def DeviceTree.Carries (d : Dtb) (t : DeviceTree) (node : TreeNode) (cells : ℕ × ℕ) :
    Option DtbNode → Prop
  | none => (node, cells) ∈ t.root.nodesWith carriedCells d.getStructOffset defaultCells
  | some n => ∃ p ∈ t.places d, p.node.address = n.address ∧
      (node, cells) ∈ itemsNodesWith (n.addressCells, n.sizeCells) p.after p.rest

/-- The cells of a node that is found, if the search has `cells` there. -/
def Criterion.handleCells (c : Criterion) (node : TreeNode) (cells : ℕ × ℕ) : ℕ × ℕ :=
  match c with
  | .name _ => cells
  | .compatible s => cellsThrough (hasString s) node.properties cells

def isReg (p : FdtProperty) : Bool :=
  p.name = propReg

/-- The cells when the code gets to `reg`. -/
def Criterion.cellsInForce (c : Criterion) (node : TreeNode) (cells : ℕ × ℕ) : ℕ × ℕ :=
  cellsThrough isReg node.properties (c.handleCells node cells)

/-- How many bytes a pair has. -/
def pairBytes (cells : ℕ × ℕ) : ℕ :=
  4 * (cells.1 + cells.2)

/-- A pair of `reg`. -/
def regPair (cells : ℕ × ℕ) (value : List (BitVec 8)) (i : ℕ) : Option (ℕ × ℕ) :=
  if pairBytes cells * (i + 1) ≤ value.length then
    let rest := value.drop (pairBytes cells * i)
    some (fromBeBytes (rest.take (4 * cells.1)),
      fromBeBytes ((rest.drop (4 * cells.1)).take (4 * cells.2)))
  else none

/-- A pair of the `reg` of a node. -/
def TreeNode.reg (node : TreeNode) (cells : ℕ × ℕ) (i : ℕ) : Option (ℕ × ℕ) :=
  (node.properties.find? isReg).bind fun p => regPair cells p.value i

/-- Neither of the numbers is larger than 2. -/
def AtMostTwo (cells : ℕ × ℕ) : Prop :=
  cells.1 ≤ 2 ∧ cells.2 ≤ 2

/-- All properties with cells of the nodes are valid. -/
def CellsValid (nodes : List TreeNode) : Prop :=
  ∀ node ∈ nodes, ∀ p ∈ node.properties, p.CellsValid

section Cells

variable {d : Dtb} {t : DeviceTree} {a : ℕ} {ps : List FdtProperty} {cells : ℕ × ℕ}

theorem FdtProperty.CellsValid.atMostTwo {p : FdtProperty} (hp : p.CellsValid)
    (h : AtMostTwo cells) : AtMostTwo (p.cells cells) := by
  have hvalue : p.name = propAddressCells ∨ p.name = propSizeCells → fromBeBytes p.value ≤ 2 := by
    intro hname
    obtain ⟨v, hv, hp⟩ := hp hname
    rwa [hp, fromBeBytes_toBeBytes (by omega)]
  rw [FdtProperty.cells]
  split_ifs with h₁ h₂
  · exact ⟨hvalue (.inl h₁), h.2⟩
  · exact ⟨h.1, hvalue (.inr h₂)⟩
  · exact h

theorem atMostTwo_cellsThrough (found : FdtProperty → Bool) : ∀ {ps : List FdtProperty}
    {cells : ℕ × ℕ}, (∀ p ∈ ps, p.CellsValid) → AtMostTwo cells → AtMostTwo (cellsThrough found ps cells)
  | [], _, _, h => h
  | p :: ps, cells, hps, h => by
    have hfirst := (hps p (by simp)).atMostTwo h
    rw [cellsThrough]
    split_ifs
    · exact hfirst
    · exact atMostTwo_cellsThrough found (fun x hx => hps x (by simp [hx])) hfirst

theorem cellsThrough_of_not_any {found : FdtProperty → Bool} : ∀ {ps : List FdtProperty}
    (cells : ℕ × ℕ), ps.any found = false → cellsThrough found ps cells = carriedCells ps cells
  | [], _, _ => rfl
  | p :: ps, cells, h => by
    rw [List.any_cons, Bool.or_eq_false_iff] at h
    rw [cellsThrough, carriedCells, cellsThrough, h.1, if_neg (by simp), if_neg (by simp),
      cellsThrough_of_not_any _ h.2, carriedCells]

/-- The code reads the cells as the property has them. -/
theorem cellsBehind_eq {p : FdtProperty} (hp : p.Valid d) (hcells : p.CellsValid)
    (h : Stored d a p.bytes) : p.cellsBehind d a cells = p.cells cells := by
  have hread : p.name = propAddressCells ∨ p.name = propSizeCells →
      d.readNode (a + 4 * p.nops + 12) = some p.value := by
    intro hname
    obtain ⟨v, -, hv⟩ := hcells hname
    exact readNode_of_stored (stored_value h) (by rw [hv]; rfl)
  rw [FdtProperty.cellsBehind, FdtProperty.cells, checkAddressAndSizeCells,
    compareNameSegment_eq hp isString_propAddressCells, compareNameSegment_eq hp isString_propSizeCells]
  by_cases h₁ : p.name = propAddressCells
  · rw [hread (.inl h₁), if_pos h₁, decide_eq_true h₁]
    rfl
  · by_cases h₂ : p.name = propSizeCells
    · rw [hread (.inr h₂), if_neg h₁, if_pos h₂, decide_eq_false h₁, decide_eq_true h₂]
      rfl
    · rw [if_neg h₁, if_neg h₂, decide_eq_false h₁, decide_eq_false h₂]
      rfl

theorem cellsUpTo_eq (found : FdtProperty → Bool) : ∀ {ps : List FdtProperty} {a : ℕ} (cells : ℕ × ℕ),
    (∀ p ∈ ps, p.Valid d) → (∀ p ∈ ps, p.CellsValid) → Stored d a (propertiesBytes ps) →
      cellsUpTo d found a ps cells = cellsThrough found ps cells
  | [], _, _, _, _, _ => rfl
  | p :: ps, a, cells, hps, hcells, h => by
    rw [propertiesBytes_cons] at h
    obtain ⟨hfirst, hrest⟩ := stored_append.mp h
    rw [cellsUpTo, cellsThrough, cellsBehind_eq (hps p (by simp)) (hcells p (by simp)) hfirst,
      cellsUpTo_eq found _ (fun x hx => hps x (by simp [hx])) (fun x hx => hcells x (by simp [hx]))
        hrest]

end Cells

/-! ## The cells of a search -/

section Search

variable {d : Dtb} {t : DeviceTree} {onName : List (BitVec 8) → Bool} {onProperty : FdtProperty → Bool}

/-- The handle of a node that a search finds. -/
def handleOf (onName : List (BitVec 8) → Bool) (onProperty : FdtProperty → Bool)
    (x : TreeNode × (ℕ × ℕ)) : DtbNode :=
  let cells := if onName x.1.name then x.2 else cellsThrough onProperty x.1.properties x.2
  ⟨x.1.address, cells.1, cells.2⟩

/-- A search finds the first of the nodes with their cells. -/
def firstHandle (onName : List (BitVec 8) → Bool) (onProperty : FdtProperty → Bool)
    (nodes : List (TreeNode × (ℕ × ℕ))) : Option DtbNode :=
  (nodes.find? fun x => x.1.found onName onProperty).map (handleOf onName onProperty)

theorem firstHandle_append (xs ys : List (TreeNode × (ℕ × ℕ))) :
    firstHandle onName onProperty (xs ++ ys) =
      (firstHandle onName onProperty xs).or (firstHandle onName onProperty ys) := by
  rw [firstHandle, List.find?_append, Option.map_or, firstHandle, firstHandle]

theorem Forest.map_fst_nodesWith (child : List FdtProperty → ℕ × ℕ → ℕ × ℕ) :
    ∀ (a : ℕ) (cells : ℕ × ℕ) (f : Forest), (f.nodesWith child a cells).map Prod.fst = f.nodes a
  | _, _, .nil => rfl
  | a, cells, .node nops name ps children e siblings => by
    rw [Forest.nodesWith, Forest.nodes, List.map_cons, List.map_append, children.map_fst_nodesWith,
      siblings.map_fst_nodesWith]

/-- Where the parts of a stored node lie. -/
theorem stored_node {a nops : ℕ} {name : List (BitVec 8)} {ps : List FdtProperty} {children : Forest}
    {e : ℕ} {siblings : Forest} (h : Stored d a (Forest.node nops name ps children e siblings).bytes) :
    Stored d (nameEnd a nops name) (propertiesBytes ps) ∧
      Stored d (childrenAt a nops name ps) children.bytes ∧
      Stored d (siblingsAt a nops name ps children e) siblings.bytes := by
  rw [Forest.bytes] at h
  obtain ⟨-, h⟩ := stored_append.mp h
  obtain ⟨-, h⟩ := stored_append.mp h
  obtain ⟨-, h⟩ := stored_append.mp h
  obtain ⟨hprops, h⟩ := stored_append.mp h
  obtain ⟨hchildren, h⟩ := stored_append.mp h
  obtain ⟨-, h⟩ := stored_append.mp h
  exact ⟨hprops, hchildren, (stored_append.mp h).2⟩

theorem cellsValid_node {a nops : ℕ} {name : List (BitVec 8)} {ps : List FdtProperty}
    {children : Forest} {e : ℕ} {siblings : Forest}
    (h : CellsValid ((Forest.node nops name ps children e siblings).nodes a)) :
    (∀ p ∈ ps, p.CellsValid) ∧ CellsValid (children.nodes (childrenAt a nops name ps)) ∧
      CellsValid (siblings.nodes (siblingsAt a nops name ps children e)) := by
  rw [Forest.nodes] at h
  exact ⟨h _ (List.mem_cons_self ..), fun x hx => h x (by simp [hx]), fun x hx => h x (by simp [hx])⟩

/-- The search of a forest takes the cells as the tree has them. -/
theorem Forest.firstNode_eq : ∀ {f : Forest} {a : ℕ} (cells : ℕ × ℕ), f.Valid d →
    CellsValid (f.nodes a) → Stored d a f.bytes →
      f.firstNode d onName onProperty a cells =
        firstHandle onName onProperty (f.nodesWith carriedCells a cells)
  | .nil, _, _, _, _, _ => rfl
  | .node nops name ps children e siblings, a, cells, ⟨_, hps, hchildren, hsiblings⟩, hcells, h => by
    obtain ⟨hprops, hsub, hsib⟩ := stored_node h
    obtain ⟨hown, hcells₁, hcells₂⟩ := cellsValid_node hcells
    have heq := cellsUpTo_eq onProperty cells hps hown hprops
    rw [Forest.firstNode, heq, Forest.nodesWith, firstHandle, List.find?_cons, TreeNode.found]
    cases hname : onName name with
    | true =>
      simp only [Bool.true_or, Option.map_some, handleOf, hname, if_true]
    | false =>
      cases hany : ps.any onProperty with
      | true =>
        simp only [Bool.or_true, Option.map_some, handleOf, hname, if_true, Bool.false_eq_true,
          if_false]
      | false =>
        rw [cellsThrough_of_not_any cells hany, children.firstNode_eq _ hchildren hcells₁ hsub,
          siblings.firstNode_eq _ hsiblings hcells₂ hsib, ← firstHandle_append]
        rfl

theorem Item.firstNode_eq {x : Item} {a : ℕ} (cells : ℕ × ℕ) (hvalid : x.Valid d)
    (hcells : CellsValid (x.nodes a)) (h : Stored d a x.bytes) :
    x.firstNode d onName onProperty a cells = firstHandle onName onProperty (x.nodesWith a cells) := by
  cases x with
  | tree nops name ps children e => exact Forest.firstNode_eq cells hvalid hcells h
  | close k => rfl

/-- The same behind a node. -/
theorem itemsFirstNode_eq (cells : ℕ × ℕ) : ∀ {items : List Item} {a : ℕ}, ItemsAt d t a items →
    CellsValid (itemsNodes a items) →
      itemsFirstNode d onName onProperty cells a items =
        firstHandle onName onProperty (itemsNodesWith cells a items)
  | [], _, _, _ => rfl
  | x :: xs, a, h, hcells => by
    obtain ⟨hx, hvalid, hxs⟩ := h.cons
    rw [itemsNodes] at hcells
    rw [itemsFirstNode, itemsNodesWith, firstHandle_append,
      Item.firstNode_eq cells hvalid (fun y hy => hcells y (by simp [hy])) hx,
      itemsFirstNode_eq cells hxs fun y hy => hcells y (by simp [hy])]

theorem Forest.atMostTwo_nodesWith : ∀ {a : ℕ} {f : Forest} {cells : ℕ × ℕ} {x : TreeNode × (ℕ × ℕ)},
    CellsValid (f.nodes a) → AtMostTwo cells → x ∈ f.nodesWith carriedCells a cells → AtMostTwo x.2
  | a, .node nops name ps children e siblings, cells, x, hvalid, hcells, hx => by
    obtain ⟨hown, hchildren, hsiblings⟩ := cellsValid_node hvalid
    rw [Forest.nodesWith, List.mem_cons, List.mem_append] at hx
    obtain rfl | hx | hx := hx
    · exact hcells
    · exact Forest.atMostTwo_nodesWith hchildren (atMostTwo_cellsThrough _ hown hcells) hx
    · exact Forest.atMostTwo_nodesWith hsiblings hcells hx

theorem atMostTwo_itemsNodesWith {cells : ℕ × ℕ} (hcells : AtMostTwo cells)
    {x : TreeNode × (ℕ × ℕ)} : ∀ {items : List Item} {a : ℕ}, CellsValid (itemsNodes a items) →
      x ∈ itemsNodesWith cells a items → AtMostTwo x.2
  | y :: ys, a, hvalid, hx => by
    rw [itemsNodes] at hvalid
    rw [itemsNodesWith, List.mem_append] at hx
    obtain hx | hx := hx
    · cases y with
      | tree nops name ps children e =>
        exact Forest.atMostTwo_nodesWith (fun z hz => hvalid z (List.mem_append_left _ hz)) hcells hx
      | close k => cases hx
    · exact atMostTwo_itemsNodesWith hcells (fun z hz => hvalid z (by simp [hz])) hx

theorem handleOf_eq {c : Criterion} {x : TreeNode × (ℕ × ℕ)}
    (h : x.1.found c.onName c.onProperty = true) :
    handleOf c.onName c.onProperty x =
      ⟨x.1.address, (c.handleCells x.1 x.2).1, (c.handleCells x.1 x.2).2⟩ := by
  cases c with
  | name s =>
    have hname : isNamed s x.1.name = true := by
      rwa [Criterion.onName, Criterion.onProperty, found_onName] at h
    simp only [handleOf, Criterion.onName, hname, if_true, Criterion.handleCells]
  | compatible s => rfl

/-- The first of the nodes, as the handle that the search returns. -/
theorem exists_of_firstHandle {c : Criterion} {nodes : List (TreeNode × (ℕ × ℕ))} {n : DtbNode}
    (h : firstHandle c.onName c.onProperty nodes = some n) :
    ∃ x ∈ nodes, n = ⟨x.1.address, (c.handleCells x.1 x.2).1, (c.handleCells x.1 x.2).2⟩ := by
  obtain ⟨x, hx, rfl⟩ := Option.map_eq_some_iff.mp h
  have hfound := List.find?_some hx
  exact ⟨x, List.mem_of_find?_eq_some hx, handleOf_eq hfound⟩

theorem map_fst_itemsNodesWith (cells : ℕ × ℕ) : ∀ (a : ℕ) (items : List Item),
    (itemsNodesWith cells a items).map Prod.fst = itemsNodes a items
  | _, [] => rfl
  | a, x :: xs => by
    rw [itemsNodesWith, itemsNodes, List.map_append, map_fst_itemsNodesWith]
    cases x with
    | tree nops name ps children e => rw [Item.nodesWith, Item.nodes, Forest.map_fst_nodesWith]
    | close k => rfl

/-- The cells of a handle. -/
def cellsOf (n : DtbNode) : ℕ × ℕ := (n.addressCells, n.sizeCells)

/-- A search returns a node of the tree, with the cells that it carries there, and up to `compatible` those
of the node itself. -/
theorem search_carries (h : t.StoredIn d) (hvalid : CellsValid (t.nodes d)) {c : Criterion}
    (hc : IsString c.text) {currentNode : Option DtbNode} (hcurrent : ∀ m ∈ currentNode, d.Returned m)
    (hcells : ∀ m ∈ currentNode, AtMostTwo (cellsOf m)) {n : DtbNode}
    (hn : d.search c.query currentNode = .ok (some n)) :
    ∃ node ∈ t.nodes d, ∃ cells, t.Carries d node cells currentNode ∧ AtMostTwo cells ∧
      n = ⟨node.address, (c.handleCells node cells).1, (c.handleCells node cells).2⟩ := by
  have hq := c.decides hc d
  cases currentNode with
  | none =>
    have hdefault : AtMostTwo defaultCells := ⟨le_rfl, Nat.le_succ 1⟩
    have hstored : Stored d d.getStructOffset t.root.bytes := by
      have hbytes : Stored d d.getStructOffset t.bytes := ⟨le_rfl, by rw [h.size], h.holds⟩
      exact (stored_append.mp hbytes).1
    have hfirst := Except.ok.inj ((search_start hq h).symm.trans hn)
    rw [Forest.firstNode_eq _ h.valid hvalid hstored] at hfirst
    obtain ⟨⟨node, cells⟩, hx, hn⟩ := exists_of_firstHandle hfirst
    refine ⟨node, ?_, cells, hx, Forest.atMostTwo_nodesWith hvalid hdefault hx, hn⟩
    rw [DeviceTree.nodes, ← Forest.map_fst_nodesWith carriedCells]
    exact List.mem_map_of_mem hx
  | some m =>
    obtain ⟨node, hnode, haddress⟩ := (hcurrent m rfl).mem_nodes h
    obtain ⟨p, hp, rfl⟩ := mem_nodes_iff.mp hnode
    have hstored := DeviceTree.places_storedIn h hp
    obtain ⟨r, hr, hreach, hnone⟩ := search_place hq hstored (cellsOf m)
    rw [haddress] at hr
    have hr' := Except.ok.inj (hr.symm.trans hn)
    by_cases hresumes : p.Resumes c.onName c.onProperty
    · have hlater : CellsValid (itemsNodes p.after p.rest) :=
        fun x hx => hvalid x (mem_nodes_of_later hp hx)
      have hfirst := (hreach hresumes).symm.trans hr'
      rw [itemsFirstNode_eq _ hstored.itemsAt hlater] at hfirst
      obtain ⟨⟨node, cells⟩, hx, hn⟩ := exists_of_firstHandle hfirst
      refine ⟨node, mem_nodes_of_later hp ?_, cells, ⟨p, hp, haddress, hx⟩,
        atMostTwo_itemsNodesWith (hcells m rfl) hlater hx, hn⟩
      rw [Place.later, ← map_fst_itemsNodesWith (cellsOf m)]
      exact List.mem_map_of_mem hx
    · rw [hnone hresumes] at hr'
      cases hr'

theorem atMostTwo_handleCells {c : Criterion} {node : TreeNode} {cells : ℕ × ℕ}
    (hnode : ∀ p ∈ node.properties, p.CellsValid) (h : AtMostTwo cells) :
    AtMostTwo (c.handleCells node cells) := by
  cases c with
  | name s => exact h
  | compatible s => exact atMostTwo_cellsThrough _ hnode h

/-- No search returns more than two cells. -/
theorem Dtb.Returned.atMostTwo (h : t.StoredIn d) (hvalid : CellsValid (t.nodes d)) {n : DtbNode}
    (hn : d.Returned n) : AtMostTwo (cellsOf n) := by
  induction hn with
  | search hc hcurrent hsearch ih =>
    obtain ⟨node, hnode, cells, -, hcells, rfl⟩ := search_carries h hvalid hc hcurrent ih hsearch
    exact atMostTwo_handleCells (hvalid node hnode) hcells

end Search

/-! ## Pairs -/

section Pairs

variable {d : Dtb} {t : DeviceTree}

/-- The bytes of a number are shifted in, as long as there are not more than eight. -/
theorem foldl_shiftLeft : ∀ {bytes : List (BitVec 8)} {n k : ℕ}, n < 256 ^ k → k + bytes.length ≤ 8 →
    bytes.foldl (fun n b => (n <<< 8) % 2 ^ 64 ||| b.toNat) n =
      bytes.foldl (fun n b => n * 256 + b.toNat) n
  | [], _, _, _, _ => rfl
  | b :: bytes, n, k, hn, hk => by
    rw [List.length_cons] at hk
    have hb := b.isLt
    have hpow : 256 ^ (k + 1) ≤ 256 ^ 8 := Nat.pow_le_pow_right (by omega) (by omega)
    have hsucc : 256 ^ (k + 1) = 256 ^ k * 256 := pow_succ ..
    have hstep : (n <<< 8) % 2 ^ 64 ||| b.toNat = n * 256 + b.toNat := by
      rw [Nat.mod_eq_of_lt (by rw [Nat.shiftLeft_eq]; omega), ← Nat.shiftLeft_add_eq_or_of_lt hb,
        Nat.shiftLeft_eq]
    rw [List.foldl_cons, List.foldl_cons, hstep]
    exact foldl_shiftLeft (k := k + 1) (by omega) (by omega)

theorem readBytes_eq {a : ℕ} {bytes : List (BitVec 8)} (h : HoldsAt d.memory a bytes)
    (hlen : bytes.length ≤ 8) : d.readBytes a bytes.length = fromBeBytes bytes := by
  rw [readBytes, h.bytesAt, foldl_shiftLeft (k := 0) (by simp) (by omega), fromBeBytes]

/-- The bytes of the value from `k` on. -/
theorem readBytes_value {a k n : ℕ} {value : List (BitVec 8)} (h : HoldsAt d.memory a value)
    (hk : k + n ≤ value.length) (hn : n ≤ 8) :
    d.readBytes (a + k) n = fromBeBytes ((value.drop k).take n) := by
  have hlen : ((value.drop k).take n).length = n := by
    rw [List.length_take, List.length_drop]
    omega
  have hdrop : HoldsAt d.memory (a + k) ((value.drop k).take n) := by
    rw [← List.take_append_drop k value, ← List.take_append_drop n (value.drop k)] at h
    have hrest := (holdsAt_append.mp h).2
    rw [List.length_take, min_eq_left (by omega)] at hrest
    exact (holdsAt_append.mp hrest).1
  have hread := readBytes_eq hdrop (by omega)
  rwa [hlen] at hread

/-- What the lookup of `reg` returns, and its cells. -/
theorem firstProperty_reg : ∀ {ps : List FdtProperty} {a : ℕ} (cells : ℕ × ℕ),
    (∀ p ∈ ps, p.Valid d) → (∀ p ∈ ps, p.CellsValid) → Stored d a (propertiesBytes ps) →
      (ps.find? isReg = none ∧ firstProperty d propReg a ps cells = none) ∨
        ∃ p info, ps.find? isReg = some p ∧ firstProperty d propReg a ps cells = some info ∧
          (info.addressCells, info.sizeCells) = cellsThrough isReg ps cells ∧
          info.len = p.value.length ∧ HoldsAt d.memory info.address p.value
  | [], _, _, _, _, _ => .inl ⟨rfl, rfl⟩
  | p :: ps, a, cells, hps, hcells, h => by
    rw [propertiesBytes_cons] at h
    obtain ⟨hfirst, hrest⟩ := stored_append.mp h
    have heq : p.cellsBehind d a cells = p.cells cells :=
      cellsBehind_eq (hps p (by simp)) (hcells p (by simp)) hfirst
    rw [firstProperty, List.find?_cons, cellsThrough, heq]
    by_cases hp : p.name = propReg
    · have hreg : isReg p = true := decide_eq_true hp
      rw [if_pos hp, hreg]
      exact .inr ⟨p, _, rfl, rfl, by rw [if_pos rfl], rfl, (stored_value hfirst).holds⟩
    · have hreg : isReg p = false := decide_eq_false hp
      rw [if_neg hp, hreg, if_neg (by simp)]
      exact firstProperty_reg _ (fun x hx => hps x (by simp [hx])) (fun x hx => hcells x (by simp [hx]))
        hrest

/-- What is read at a node of the tree : the pair with the cells that the lookup has got, unless its end
does not fit into a word. -/
theorem readRegProperty_place {p : Place} (h : p.StoredIn d t)
    (hvalid : ∀ x ∈ p.node.properties, x.CellsValid) {cells : ℕ × ℕ} (hcells : AtMostTwo cells)
    (i : ℕ) :
    d.readRegProperty ⟨p.node.address, cells.1, cells.2⟩ i =
      if (p.node.properties.find? isReg).isSome ∧
          2 ^ 64 ≤ pairBytes (cellsThrough isReg p.node.properties cells) * (i + 1) then
        .error .overflow
      else .ok (p.node.reg (cellsThrough isReg p.node.properties cells) i) := by
  have hprops := (stored_append.mp h.stored.toStored).1
  have hinForce := atMostTwo_cellsThrough isReg hvalid hcells
  have hrun := getProperty_place (by simp [IsString, propReg] : IsString propReg) h cells
  obtain ⟨hfind, hnone⟩ | ⟨q, info, hfind, hsome, hinfo, hlen, hvalue⟩ :=
    firstProperty_reg cells h.properties hvalid hprops
  · rw [hnone] at hrun
    rw [readRegProperty, hrun, TreeNode.reg, hfind]
    rfl
  · rw [hsome] at hrun
    rw [← hinfo] at hinForce ⊢
    obtain ⟨h₁, h₂⟩ := hinForce
    simp only at h₁ h₂
    have hsum : checkedAdd 32 info.addressCells info.sizeCells =
        .ok (info.addressCells + info.sizeCells) := checkedAdd_of_lt (by omega)
    have hwidth : checkedMul 64 (info.addressCells + info.sizeCells) 4 =
        .ok (pairBytes (info.addressCells, info.sizeCells)) := by
      rw [checkedMul_of_lt (by omega), pairBytes, Nat.mul_comm]
    have haddress : checkedMul 32 info.addressCells 4 = .ok (4 * info.addressCells) := by
      rw [checkedMul_of_lt (by omega), Nat.mul_comm]
    have hsize : checkedMul 32 info.sizeCells 4 = .ok (4 * info.sizeCells) := by
      rw [checkedMul_of_lt (by omega), Nat.mul_comm]
    have hpair : pairBytes (info.addressCells, info.sizeCells) =
        4 * info.addressCells + 4 * info.sizeCells := Nat.mul_add ..
    rw [readRegProperty, hrun, TreeNode.reg, hfind]
    simp only [Exec.ok_bind, Option.bind_some, Option.isSome_some, true_and, hsum, hwidth, haddress,
      hsize, regPair, Nat.mul_succ]
    generalize pairBytes (info.addressCells, info.sizeCells) = width at hpair
    by_cases hmul : width * i < 2 ^ 64
    · rw [checkedMul_of_lt hmul, Exec.ok_bind]
      by_cases hadd : width * i + width < 2 ^ 64
      · rw [checkedAdd_of_lt hadd, if_neg (by omega), Exec.ok_bind, hlen]
        by_cases hfits : width * i + width ≤ q.value.length
        · rw [if_neg (by omega), if_pos hfits, readBytes_value hvalue (by omega) (by omega),
            Nat.add_assoc, readBytes_value hvalue (by omega) (by omega), List.drop_drop]
          rfl
        · rw [if_pos (by omega), if_neg hfits]
          rfl
      · rw [checkedAdd, if_neg hadd, if_pos (by omega)]
        rfl
    · rw [checkedMul, if_neg hmul, if_pos (by omega)]
      rfl

/-- The node has no `reg`, or the end of the pair fits into a word and the cells in force give the same
pair as those of the parent. -/
def Criterion.ReadsReg (c : Criterion) (node : TreeNode) (cells parentCells : ℕ × ℕ) (i : ℕ) : Prop :=
  (∀ p ∈ node.properties, p.name ≠ propReg) ∨
    (pairBytes (c.cellsInForce node cells) * (i + 1) < 2 ^ 64 ∧
      node.reg (c.cellsInForce node cells) i = node.reg parentCells i)

theorem find?_isReg_eq_none {ps : List FdtProperty} :
    ps.find? isReg = none ↔ ∀ p ∈ ps, p.name ≠ propReg := by
  simp [List.find?_eq_none, isReg]

/-- A search finds a node of the tree, and its `reg` is read with the cells of the parent exactly if the
cells that the search carries to it and its own ones in front of `reg` come to the same. -/
theorem readRegProperty_iff (h : t.StoredIn d) (hvalid : CellsValid (t.nodes d)) {c : Criterion}
    (hc : IsString c.text) {currentNode : Option DtbNode} (hcurrent : ∀ m ∈ currentNode, d.Returned m)
    {n : DtbNode} (hn : d.search c.query currentNode = .ok (some n)) :
    ∃ node parentCells cells, (node, parentCells) ∈ t.withParents d ∧ node.address = n.address ∧
      t.Carries d node cells currentNode ∧
      ∀ i, d.readRegProperty n i = .ok (node.reg parentCells i) ↔ c.ReadsReg node cells parentCells i := by
  obtain ⟨node, hnode, cells, hcarries, hcells, rfl⟩ := search_carries h hvalid hc hcurrent
    (fun m hm => (hcurrent m hm).atMostTwo h hvalid) hn
  obtain ⟨⟨node', parentCells⟩, hparent, rfl⟩ : ∃ x ∈ t.withParents d, x.1 = node := by
    rwa [DeviceTree.nodes, ← Forest.map_fst_nodesWith declaredCells _ defaultCells, List.mem_map]
      at hnode
  have hown := hvalid node' hnode
  obtain ⟨p, hp, hplace⟩ := mem_nodes_iff.mp hnode
  have hread := readRegProperty_place (DeviceTree.places_storedIn h hp) (hplace ▸ hown)
    (atMostTwo_handleCells (c := c) hown hcells)
  rw [hplace] at hread
  refine ⟨node', parentCells, cells, hparent, rfl, hcarries, fun i => ?_⟩
  rw [hread, Criterion.ReadsReg, Criterion.cellsInForce, ← find?_isReg_eq_none]
  cases hfind : node'.properties.find? isReg with
  | none => simp [TreeNode.reg, hfind]
  | some p =>
    simp only [Option.isSome_some, true_and, reduceCtorEq, false_or]
    by_cases hover : 2 ^ 64 ≤
        pairBytes (cellsThrough isReg node'.properties (c.handleCells node' cells)) * (i + 1)
    · rw [if_pos hover]
      exact ⟨fun hok => absurd hok (by simp), fun hreads => absurd hreads.1 (by omega)⟩
    · rw [if_neg hover]
      exact ⟨fun hok => ⟨by omega, Except.ok.inj hok⟩, fun hreads => congrArg Except.ok hreads.2⟩

end Pairs

section Example

/-- A device `a` with an address cell for its own children, in front of its `reg`. -/
def busProperties : List FdtProperty :=
  [⟨0, 0, propAddressCells, toBeBytes 1⟩,
    ⟨0, 15, propReg, toBeBytes 0 ++ (toBeBytes 0x1000 ++ toBeBytes 0x100)⟩]

def busTree : DeviceTree where
  nops := 0
  name := []
  properties := []
  children := .node 0 [0x61#8] busProperties .nil 0 .nil
  endNops := 0
  finalNops := 0

def busDtb : Dtb :=
  busTree.flatten (propAddressCells ++ [0#8] ++ (propReg ++ [0#8])) 4096

def busPlace : Place :=
  placeOf (busDtb.getStructOffset + 8) 0 [0x61#8] busProperties .nil 0 .nil [.close 0]

theorem busProperties_valid : ∀ p ∈ busProperties, p.Valid busDtb := by
  simp only [busProperties, List.forall_mem_cons, List.not_mem_nil, false_implies, implies_true,
    and_true]
  refine ⟨⟨by decide, by decide, by decide, isString_propAddressCells, by decide +kernel,
    fun h => absurd h (by decide)⟩, ⟨by decide, by decide, by decide, by simp [IsString, propReg],
    by decide +kernel, fun h => absurd h (by decide)⟩⟩

theorem busTree_storedIn : busTree.StoredIn busDtb :=
  flatten_storedIn busTree _ 4096 (by decide) (by decide)
    ⟨by simp [IsString, busTree], by simp [busTree],
      ⟨by simp [IsString], busProperties_valid, trivial, trivial⟩, trivial⟩

theorem busProperties_cellsValid : ∀ p ∈ busProperties, p.CellsValid := by
  simp only [busProperties, List.forall_mem_cons, List.not_mem_nil, false_implies, implies_true,
    and_true]
  exact ⟨fun _ => ⟨1, by decide, rfl⟩, fun h => absurd h (by decide)⟩

theorem busTree_cellsValid : CellsValid (busTree.nodes busDtb) := by
  have hnodes : busTree.nodes busDtb = [⟨busDtb.getStructOffset + 8, [], []⟩, busPlace.node] := by
    rfl
  rw [hnodes, CellsValid, List.forall_mem_cons, List.forall_mem_singleton]
  exact ⟨List.forall_mem_nil _, busProperties_cellsValid⟩

/-- The handle of the device. -/
def busNode : DtbNode := ⟨busPlace.node.address, defaultAddressCells, defaultSizeCells⟩

theorem busNode_found :
    busDtb.search (Criterion.name [0x61#8]).query none = .ok (some busNode) := by
  have hname : IsString (Criterion.name [0x61#8]).text := by simp [IsString, Criterion.text]
  rw [search_start (Criterion.decides hname busDtb) busTree_storedIn]
  decide +kernel

theorem readRegProperty_iff_bus :
    ∃ node parentCells cells, (node, parentCells) ∈ busTree.withParents busDtb ∧
      node.address = busNode.address ∧ busTree.Carries busDtb node cells none ∧
      ∀ i, busDtb.readRegProperty busNode i = .ok (node.reg parentCells i) ↔
        (Criterion.name [0x61#8]).ReadsReg node cells parentCells i :=
  readRegProperty_iff busTree_storedIn busTree_cellsValid (by simp [IsString, Criterion.text])
    (fun m hm => absurd hm (Option.not_mem_none m)) busNode_found

/-- The `reg` of the device has an address of two cells and a size of one, as its parent does not say
anything else. The code takes the cells of the device for it. -/
theorem readRegProperty_ownCells :
    busDtb.searchNode [0x61#8] none = .ok (some busNode) ∧
      (busPlace.node, defaultCells) ∈ busTree.withParents busDtb ∧
      busPlace.node.address = busNode.address ∧
      busPlace.node.reg defaultCells 0 = some (0x1000, 0x100) ∧
      busDtb.readRegProperty busNode 0 = .ok (some (0, 0x1000)) := by
  have hmem : busPlace ∈ busTree.places busDtb := List.mem_cons_of_mem _ (List.mem_cons_self ..)
  have hdefault : AtMostTwo defaultCells := ⟨le_rfl, Nat.le_succ 1⟩
  have hread := readRegProperty_place (DeviceTree.places_storedIn busTree_storedIn hmem)
    busProperties_cellsValid hdefault 0
  refine ⟨busNode_found, List.mem_cons_of_mem _ (List.mem_cons_self ..), rfl, by decide +kernel, ?_⟩
  rw [show busNode = ⟨busPlace.node.address, defaultCells.1, defaultCells.2⟩ from rfl, hread]
  decide +kernel

end Example

end MiniVisor
