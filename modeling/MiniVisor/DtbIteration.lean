import MiniVisor.DeviceTree

/-!
# Going on behind a node

A search that is given a node looks for the next one behind its end. What is behind a node is a list of
items : the nodes that follow, and the ends of the nodes around it. `Place` is a node with the items behind
it, and `Forest.places` are the nodes of a tree in document order, each with its items.

`skipToNextNode` does not skip the name of a child, so it only gets behind a node without children. The
loop behind it adds the size of a token whenever a node was not found, although the pointer is behind the
end of that node already. `Reachable` says which nodes can be found nevertheless.
-/

namespace MiniVisor

open Machine Dtb

/-! ## What is behind a node -/

/-- A node with its children, or the end of a node around it. -/
inductive Item
  | tree (nops : ℕ) (name : List (BitVec 8)) (properties : List FdtProperty) (children : Forest)
      (endNops : ℕ)
  | close (nops : ℕ)

def Item.bytes : Item → List (BitVec 8)
  | .tree nops name ps children e => (Forest.node nops name ps children e .nil).bytes
  | .close nops => nopBytes nops ++ fdtEndNode

def Item.nodes (a : ℕ) : Item → List TreeNode
  | .tree nops name ps children e => (Forest.node nops name ps children e .nil).nodes a
  | .close _ => []

def Item.Valid (d : Dtb) : Item → Prop
  | .tree nops name ps children e => (Forest.node nops name ps children e .nil).Valid d
  | .close _ => True

def itemsBytes (items : List Item) : List (BitVec 8) :=
  items.flatMap Item.bytes

/-- The nodes of items that begin at `a`, in document order. -/
def itemsNodes : ℕ → List Item → List TreeNode
  | _, [] => []
  | a, x :: xs => x.nodes a ++ itemsNodes (a + x.bytes.length) xs

/-- The nodes of a forest, each with its children. -/
def Forest.items : Forest → List Item
  | .nil => []
  | .node nops name ps children e siblings => .tree nops name ps children e :: siblings.items

/-- A node of a tree, its children, and what is behind its end. -/
structure Place where
  node : TreeNode
  children : Forest
  endNops : ℕ
  rest : List Item

/-- The address behind the end of the node. -/
def Place.after (p : Place) : ℕ :=
  p.node.address + (propertiesBytes p.node.properties).length + p.children.bytes.length +
    4 * p.endNops + 4

/-- The nodes that start behind the end of the node, in document order. -/
def Place.later (p : Place) : List TreeNode :=
  itemsNodes p.after p.rest

/-- The first node of a forest, which begins at `a` and has `rest` behind it. -/
def placeOf (a nops : ℕ) (name : List (BitVec 8)) (ps : List FdtProperty) (children : Forest) (e : ℕ)
    (siblings : Forest) (rest : List Item) : Place :=
  ⟨⟨nameEnd a nops name, name, ps⟩, children, e, siblings.items ++ rest⟩

/-- The places of a forest that begins at `a` and has `rest` behind it, in document order. -/
def Forest.places : ℕ → Forest → List Item → List Place
  | _, .nil, _ => []
  | a, .node nops name ps children e siblings, rest =>
    placeOf a nops name ps children e siblings rest ::
      (children.places (childrenAt a nops name ps) (.close e :: (siblings.items ++ rest)) ++
        siblings.places (siblingsAt a nops name ps children e) rest)

/-- The places of a tree. -/
def DeviceTree.places (d : Dtb) (t : DeviceTree) : List Place :=
  t.root.places d.getStructOffset []

theorem itemsBytes_cons (x : Item) (xs : List Item) : itemsBytes (x :: xs) = x.bytes ++ itemsBytes xs :=
  List.flatMap_cons ..

theorem itemsBytes_append (xs ys : List Item) :
    itemsBytes (xs ++ ys) = itemsBytes xs ++ itemsBytes ys :=
  List.flatMap_append ..

theorem itemsNodes_append (ys : List Item) : ∀ (a : ℕ) (xs : List Item),
    itemsNodes a (xs ++ ys) = itemsNodes a xs ++ itemsNodes (a + (itemsBytes xs).length) ys
  | _, [] => rfl
  | a, x :: xs => by
    rw [List.cons_append, itemsNodes, itemsNodes, itemsNodes_append ys, itemsBytes_cons,
      List.length_append, List.append_assoc, Nat.add_assoc]

theorem Forest.itemsBytes_items : ∀ f : Forest, itemsBytes f.items = f.bytes
  | .nil => rfl
  | .node nops name ps children e siblings => by
    rw [Forest.items, itemsBytes_cons, siblings.itemsBytes_items, Forest.bytes_node, Item.bytes]

theorem Forest.itemsNodes_items : ∀ (a : ℕ) (f : Forest), itemsNodes a f.items = f.nodes a
  | _, .nil => rfl
  | a, .node nops name ps children e siblings => by
    rw [Forest.items, itemsNodes, siblings.itemsNodes_items, Forest.nodes_node, siblingsAt_eq,
      Item.nodes, Item.bytes]

theorem after_placeOf (a nops : ℕ) (name : List (BitVec 8)) (ps : List FdtProperty)
    (children : Forest) (e : ℕ) (siblings : Forest) (rest : List Item) :
    (placeOf a nops name ps children e siblings rest).after = siblingsAt a nops name ps children e := by
  rw [Place.after, siblingsAt, childrenAt, length_nopBytes, placeOf]

/-- The places are the nodes. -/
theorem Forest.map_node_places : ∀ (a : ℕ) (f : Forest) (rest : List Item),
    (f.places a rest).map Place.node = f.nodes a
  | _, .nil, _ => rfl
  | a, .node nops name ps children e siblings, rest => by
    rw [Forest.places, Forest.nodes, List.map_cons, List.map_append, children.map_node_places,
      siblings.map_node_places, placeOf]

/-- The nodes of the tree are the nodes up to the place, its own ones, and the later ones. -/
theorem Forest.nodes_split : ∀ {a : ℕ} {f : Forest} {rest : List Item} {p : Place},
    p ∈ f.places a rest → ∃ before, f.nodes a ++ itemsNodes (a + f.bytes.length) rest =
      before ++ p.node :: (p.children.nodes
        (p.node.address + (propertiesBytes p.node.properties).length) ++ p.later)
  | a, .node nops name ps children e siblings, rest, p, hp => by
    have hafter : siblingsAt a nops name ps children e + siblings.bytes.length =
        a + (Forest.node nops name ps children e siblings).bytes.length := by
      rw [siblingsAt_eq, Forest.bytes_node nops name ps children e siblings, List.length_append,
        Nat.add_assoc]
    rw [Forest.places, List.mem_cons, List.mem_append] at hp
    rw [Forest.nodes, ← hafter]
    obtain rfl | hp | hp := hp
    · refine ⟨[], ?_⟩
      rw [Place.later, after_placeOf, placeOf, itemsNodes_append, siblings.itemsNodes_items,
        siblings.itemsBytes_items]
      simp only [List.nil_append, List.cons_append, List.append_assoc, childrenAt]
    · obtain ⟨before, h⟩ := Forest.nodes_split hp
      refine ⟨⟨nameEnd a nops name, name, ps⟩ :: before, ?_⟩
      rw [itemsNodes, itemsNodes_append, siblings.itemsNodes_items, siblings.itemsBytes_items,
        Item.nodes, Item.bytes, List.length_append, List.nil_append, ← Nat.add_assoc] at h
      rw [List.cons_append, List.cons_append, ← h, List.append_assoc]
      rfl
    · obtain ⟨before, h⟩ := Forest.nodes_split hp
      refine ⟨⟨nameEnd a nops name, name, ps⟩ :: (children.nodes (childrenAt a nops name ps) ++
        before), ?_⟩
      rw [List.cons_append, List.cons_append, List.append_assoc, h, List.append_assoc]

/-! ## Places in memory -/

/-- What the memory has behind the items. -/
def DeviceTree.tail (t : DeviceTree) (items : List Item) : List (BitVec 8) :=
  itemsBytes items ++ (nopBytes t.finalNops ++ fdtEnd)

/-- The bytes lie at `a` and reach up to the end of the structure block. -/
structure StoredToEnd (d : Dtb) (a : ℕ) (bytes : List (BitVec 8)) : Prop extends Stored d a bytes where
  ends : d.getStructOffset + d.getStructSize = a + bytes.length

/-- The items lie at `a`. -/
structure ItemsAt (d : Dtb) (t : DeviceTree) (a : ℕ) (items : List Item) : Prop where
  aligned : a % 4 = 0
  valid : ∀ x ∈ items, x.Valid d
  stored : StoredToEnd d a (t.tail items)

/-- The node and what is behind it lie in the memory. -/
structure Place.StoredIn (d : Dtb) (t : DeviceTree) (p : Place) : Prop where
  aligned : p.node.address % 4 = 0
  pos : 0 < p.node.address
  properties : ∀ x ∈ p.node.properties, x.Valid d
  children : p.children.Valid d
  items : ∀ x ∈ p.rest, x.Valid d
  stored : StoredToEnd d p.node.address (propertiesBytes p.node.properties ++ (p.children.bytes ++
    (nopBytes p.endNops ++ (fdtEndNode ++ t.tail p.rest))))

section Places

variable {d : Dtb} {t : DeviceTree} {a : ℕ} {l l' : List (BitVec 8)}

theorem StoredToEnd.append (h : StoredToEnd d a (l ++ l')) : StoredToEnd d (a + l.length) l' := by
  refine ⟨(stored_append.mp h.toStored).2, ?_⟩
  rw [h.ends, List.length_append, Nat.add_assoc]

theorem length_item_mod : ∀ x : Item, x.bytes.length % 4 = 0
  | .tree nops name ps children e => length_forest_mod _
  | .close nops => by
    rw [Item.bytes, List.length_append, length_nopBytes, show fdtEndNode.length = 4 from rfl]
    omega

theorem ItemsAt.cons {x : Item} {xs : List Item} (h : ItemsAt d t a (x :: xs)) :
    Stored d a x.bytes ∧ x.Valid d ∧ ItemsAt d t (a + x.bytes.length) xs := by
  have hmod := length_item_mod x
  have hstored := h.stored
  rw [DeviceTree.tail, itemsBytes_cons, List.append_assoc] at hstored
  refine ⟨(stored_append.mp hstored.toStored).1, h.valid x (by simp), ?_,
    fun y hy => h.valid y (by simp [hy]), hstored.append⟩
  have := h.aligned
  omega

theorem Forest.valid_items : ∀ {f : Forest}, f.Valid d → ∀ x ∈ f.items, x.Valid d
  | .node nops name ps children e siblings, ⟨hname, hps, hchildren, hsiblings⟩, x, hx => by
    rw [Forest.items, List.mem_cons] at hx
    obtain rfl | hx := hx
    · exact ⟨hname, hps, hchildren, trivial⟩
    · exact Forest.valid_items hsiblings x hx

/-- All places of a stored forest lie in the memory. -/
theorem Forest.places_storedIn : ∀ {a : ℕ} {f : Forest} {rest : List Item} {p : Place},
    f.Valid d → (∀ x ∈ rest, x.Valid d) → a % 4 = 0 → StoredToEnd d a (f.bytes ++ t.tail rest) →
      p ∈ f.places a rest → p.StoredIn d t
  | a, .node nops name ps children e siblings, rest, p, ⟨hname, hps, hchildren, hsiblings⟩, hrest, ha,
      h, hp => by
    have hitems : ∀ x ∈ siblings.items ++ rest, x.Valid d := by
      intro x hx
      obtain hx | hx := List.mem_append.mp hx
      · exact Forest.valid_items hsiblings x hx
      · exact hrest x hx
    have hn := length_nameBytes_mod name
    have hpsmod := length_properties_mod ps
    have hmod := length_forest_mod (.node nops name ps children e .nil)
    have htail : t.tail (siblings.items ++ rest) = siblings.bytes ++ t.tail rest := by
      rw [DeviceTree.tail, itemsBytes_append, siblings.itemsBytes_items, List.append_assoc,
        DeviceTree.tail]
    rw [Forest.bytes] at h
    simp only [List.append_assoc] at h
    have hat := h.append.append.append
    rw [← htail, show fdtBeginNode.length = 4 from rfl] at hat
    change StoredToEnd d (nameEnd a nops name) _ at hat
    have hend : nameEnd a nops name % 4 = 0 := by
      rw [nameEnd, length_nopBytes]
      omega
    have hpos : 0 < nameEnd a nops name := by
      rw [nameEnd]
      omega
    rw [Forest.places, List.mem_cons, List.mem_append] at hp
    obtain rfl | hp | hp := hp
    · exact ⟨hend, hpos, hps, hchildren, hitems, hat⟩
    · refine Forest.places_storedIn hchildren ?_ ?_ ?_ hp
      · intro x hx
        obtain rfl | hx := List.mem_cons.mp hx
        · trivial
        · exact hitems x hx
      · rw [childrenAt]
        omega
      · have hchild := hat.append
        rw [DeviceTree.tail, itemsBytes_cons, Item.bytes, List.append_assoc, List.append_assoc,
          ← DeviceTree.tail]
        exact hchild
    · refine Forest.places_storedIn hsiblings hrest ?_ ?_ hp
      · rw [siblingsAt_eq]
        omega
      · have hsib := hat.append.append.append.append
        rw [htail] at hsib
        exact hsib

/-- All places of a stored tree lie in the memory. -/
theorem DeviceTree.places_storedIn (h : t.StoredIn d) {p : Place} (hp : p ∈ t.places d) :
    p.StoredIn d t := by
  have hstored : StoredToEnd d d.getStructOffset (t.root.bytes ++ t.tail []) :=
    ⟨⟨le_rfl, by rw [h.size]; rfl, h.holds⟩, by rw [h.size]; rfl⟩
  exact Forest.places_storedIn h.valid (by simp) h.aligned hstored hp

end Places

/-! ## Behind the node -/

section Skip

variable {d : Dtb} {a : ℕ}

/-- A name is not a token. -/
theorem name_token {name : List (BitVec 8)} (hname : IsString name) (h : Stored d a (nameBytes name)) :
    ∃ token, d.readNode a = some token ∧ ∀ c ≠ 0#8, token ≠ [0x00, 0x00, 0x00, c] := by
  have hlt : ¬d.getStructOffset + d.getStructSize ≤ a := by
    have := h.upper
    rw [nameBytes, List.length_append, List.length_append, List.length_singleton] at this
    omega
  refine ⟨bytesAt d.memory a 4, by rw [readNode, if_neg hlt, fdtTokenByte], fun c hc hbytes => ?_⟩
  simp only [bytesAt, List.range, List.range.loop, List.map_cons, List.map_nil, List.cons.injEq,
    Nat.add_zero, and_true] at hbytes
  obtain ⟨h₀, -, -, h₃⟩ := hbytes
  cases name with
  | nil =>
    have hzero : d.memory (a + 3) = 0#8 := h.holds.get (i := 3) (by decide)
    exact hc (h₃.symm.trans hzero)
  | cons b bs =>
    have hb : d.memory a = b := h.holds.1
    exact hname b (by simp) (hb.symm.trans h₀)

/-- The name of a child is taken for a token, which it is not. -/
theorem skipToNextNode_name {name : List (BitVec 8)} (hname : IsString name) (ha : a % 4 = 0)
    (hpos : 0 < a) (h : Stored d a (nameBytes name)) (n : ℕ) :
    d.skipToNextNode (n + 1) a = .ok none := by
  obtain ⟨token, hread, htoken⟩ := name_token hname h
  have hskip := skipNop_self hread (htoken 4 (by decide))
  rw [skipToNextNode, skipPadding_eq hpos, alignUp_of_mod ha]
  simp only [hskip, Exec.ok_bind, hread]
  have hbegin : token ≠ fdtBeginNode := htoken 1 (by decide)
  have hend : token ≠ fdtEnd := htoken 9 (by decide)
  have hendNode : token ≠ fdtEndNode := htoken 2 (by decide)
  have hprop : token ≠ fdtProp := htoken 3 (by decide)
  rw [if_neg hbegin, if_neg hend, if_neg hendNode, if_neg hprop]
  rfl

/-- The name of a node is not the begin of one. -/
theorem searchStep_name {q : Query} {name : List (BitVec 8)} (hname : IsString name)
    (h : Stored d a (nameBytes name)) (cells : ℕ × ℕ) :
    d.searchStep q cells a = .ok (.done none) := by
  obtain ⟨token, hread, htoken⟩ := name_token hname h
  have hskip := skipNop_self hread (htoken 4 (by decide))
  have hfailed : d.searchTree q maxIterations a cells = .ok .failed := by
    obtain ⟨n, hn⟩ := Nat.exists_eq_succ_of_ne_zero maxIterations_pos.ne'
    have hbegin : token ≠ fdtBeginNode := htoken 1 (by decide)
    rw [hn, searchTree]
    simp only [hskip, Exec.ok_bind, hread, ne_eq, Option.some.injEq, hbegin, not_false_eq_true,
      if_true]
    rfl
  rw [searchStep, if_neg (by simp [hread]), hfailed]
  rfl

/-- The properties of the node are skipped. -/
theorem skipToNextNode_properties (n : ℕ) : ∀ {ps : List FdtProperty} {a pointer : ℕ},
    (∀ p ∈ ps, p.Valid d) → a % 4 = 0 → Stored d a (propertiesBytes ps) → skipPadding pointer = a →
    ∃ pointer', skipPadding pointer' = a + (propertiesBytes ps).length ∧
      d.skipToNextNode (n + ps.length) pointer = d.skipToNextNode n pointer'
  | [], _, pointer, _, _, _, hpointer => ⟨pointer, hpointer, rfl⟩
  | p :: ps, a, pointer, hvalid, ha, h, hpointer => by
    rw [propertiesBytes_cons] at h ⊢
    obtain ⟨hfirst, hrest⟩ := stored_append.mp h
    have hmod := length_property_mod p
    have hbytes := length_property p
    have hp := hvalid p (by simp)
    obtain ⟨hskip, htoken, hfirst⟩ := token_of_stored hfirst rfl (by decide)
    have hlen := readNode_of_stored (stored_append.mp hfirst).1 rfl
    have hnext : skipPadding (a + 4 * p.nops + 4 + 4 + 4 + p.value.length) = a + p.bytes.length := by
      rw [skipPadding_eq (by omega), alignUp_add (by omega)]
      omega
    obtain ⟨pointer', hpointer', hrun⟩ := skipToNextNode_properties n
      (fun p' hp' => hvalid p' (by simp [hp'])) (by omega) hrest hnext
    refine ⟨pointer', by rw [hpointer', List.length_append, Nat.add_assoc], ?_⟩
    rw [List.length_cons, ← Nat.add_assoc, skipToNextNode, hpointer]
    simp only [hskip, Exec.ok_bind, htoken, fdtTokenByte, hlen, fromBeBytes_toBeBytes hp.length32]
    rw [if_neg (by decide), if_neg (by decide), if_neg (by decide), if_pos trivial]
    exact hrun

/-- The search goes on behind the node, if it has no children. -/
theorem skipToNextNode_place {t : DeviceTree} {p : Place} (h : p.StoredIn d t) :
    (p.children = .nil → d.skipToNextNode maxIterations p.node.address = .ok (some p.after)) ∧
      (p.children ≠ .nil → d.skipToNextNode maxIterations p.node.address = .ok none) := by
  have haligned := h.aligned
  have hmod := length_properties_mod p.node.properties
  have hstored := h.stored.toStored
  obtain ⟨hprops, hrest⟩ := stored_append.mp hstored
  have hfuel : p.node.properties.length + 2 ≤ maxIterations := by
    have := hprops.length_lt
    have := length_le_propertiesBytes p.node.properties
    rw [maxIterations]
    omega
  obtain ⟨n, hn⟩ : ∃ n, maxIterations = n + 1 + 1 + p.node.properties.length :=
    ⟨maxIterations - p.node.properties.length - 2, by omega⟩
  have hself : skipPadding p.node.address = p.node.address := by
    rw [skipPadding_eq h.pos, alignUp_of_mod h.aligned]
  obtain ⟨pointer, hpointer, hrun⟩ := skipToNextNode_properties (n + 1 + 1) h.properties h.aligned
    hprops hself
  rw [hn, hrun, skipToNextNode, hpointer]
  constructor
  · intro hnil
    rw [hnil, Forest.bytes, List.nil_append] at hrest
    obtain ⟨hskip, htoken, -⟩ := token_of_stored hrest rfl (by decide)
    simp only [hskip, Exec.ok_bind, htoken]
    rw [if_neg (by decide), if_neg (by decide), if_pos trivial, Place.after, hnil]
    rfl
  · intro hne
    cases hc : p.children with
    | nil => exact absurd hc hne
    | node nops name ps children e siblings =>
      have hvalid := h.children
      rw [hc] at hvalid hrest
      rw [Forest.bytes] at hrest
      simp only [List.append_assoc] at hrest
      obtain ⟨hskip, htoken, hchild⟩ := token_of_stored hrest rfl (by decide)
      have hname := skipToNextNode_name hvalid.1 (by omega) (by omega) (stored_append.mp hchild).1 n
      simp only [hskip, Exec.ok_bind, htoken, fdtTokenByte, hname]
      rw [if_pos trivial]
      rfl

end Skip

/-! ## The items that are reached -/

/-- Where the next search begins : behind the item before, or a token further if a node was not found. -/
def startAt (a : ℕ) : Option Item → ℕ
  | none => a
  | some (.close _) => a
  | some (.tree ..) => a + 4

/-- The item can be reached from the one before. Behind a node the next token is skipped, which may
be a NOP or the end of the node around it. In front of the end of a node no search may begin. -/
def Follows : Option Item → Item → Prop
  | some (.tree ..), .tree nops .. => 0 < nops
  | some (.tree ..), .close nops => nops = 0
  | none, .tree .. => True
  | none, .close _ => False
  | some (.close _), .tree .. => True
  | some (.close _), .close _ => False

/-- An item with a node that is looked for comes before any item that cannot be reached. -/
def Reachable (found : Item → Bool) : Option Item → List Item → Prop
  | _, [] => False
  | previous, x :: rest => Follows previous x ∧ (found x ∨ Reachable found (some x) rest)

/-- The item has a node that is looked for. -/
def Item.found (onName : List (BitVec 8) → Bool) (onProperty : FdtProperty → Bool) (x : Item) : Bool :=
  (x.nodes 0).any (TreeNode.found onName onProperty)

/-- The first node of an item that the search looks for, with the cells that the search has there. -/
def Item.firstNode (d : Dtb) (onName : List (BitVec 8) → Bool) (onProperty : FdtProperty → Bool) (a : ℕ)
    (cells : ℕ × ℕ) : Item → Option DtbNode
  | .tree nops name ps children e =>
    (Forest.node nops name ps children e .nil).firstNode d onName onProperty a cells
  | .close _ => none

/-- The first node of items. The search has the same cells for all of them. -/
def itemsFirstNode (d : Dtb) (onName : List (BitVec 8) → Bool) (onProperty : FdtProperty → Bool)
    (cells : ℕ × ℕ) : ℕ → List Item → Option DtbNode
  | _, [] => none
  | a, x :: xs => (x.firstNode d onName onProperty a cells).or
      (itemsFirstNode d onName onProperty cells (a + x.bytes.length) xs)

section Resume

variable {d : Dtb} {t : DeviceTree} {q : Query} {onName : List (BitVec 8) → Bool}
  {onProperty : FdtProperty → Bool} {a : ℕ}

theorem Item.map_address_firstNode (a : ℕ) (cells : ℕ × ℕ) (x : Item) :
    (x.firstNode d onName onProperty a cells).map DtbNode.address =
      ((x.nodes a).find? (TreeNode.found onName onProperty)).map TreeNode.address := by
  cases x with
  | tree nops name ps children e => exact Forest.map_address_firstNode ..
  | close k => rfl

/-- It is the first node in document order. -/
theorem map_address_itemsFirstNode (cells : ℕ × ℕ) : ∀ (a : ℕ) (items : List Item),
    (itemsFirstNode d onName onProperty cells a items).map DtbNode.address =
      ((itemsNodes a items).find? (TreeNode.found onName onProperty)).map TreeNode.address
  | _, [] => rfl
  | a, x :: xs => by
    rw [itemsFirstNode, itemsNodes, Option.map_or, Item.map_address_firstNode,
      map_address_itemsFirstNode, List.find?_append, Option.map_or]

theorem Forest.any_nodes (onName : List (BitVec 8) → Bool) (onProperty : FdtProperty → Bool) :
    ∀ (a b : ℕ) (f : Forest), (f.nodes a).any (TreeNode.found onName onProperty) =
      (f.nodes b).any (TreeNode.found onName onProperty)
  | _, _, .nil => rfl
  | a, b, .node nops name ps children e siblings => by
    rw [Forest.nodes, Forest.nodes, List.any_cons, List.any_cons, List.any_append, List.any_append,
      children.any_nodes onName onProperty _ (childrenAt b nops name ps),
      siblings.any_nodes onName onProperty _ (siblingsAt b nops name ps children e)]
    rfl

theorem Item.found_iff (onName : List (BitVec 8) → Bool) (onProperty : FdtProperty → Bool) (a : ℕ)
    (cells : ℕ × ℕ) (x : Item) :
    x.found onName onProperty = true ↔ x.firstNode d onName onProperty a cells ≠ none := by
  have hany : x.found onName onProperty = (x.nodes a).any (TreeNode.found onName onProperty) := by
    cases x with
    | tree nops name ps children e => exact Forest.any_nodes onName onProperty 0 a _
    | close nops => rfl
  rw [hany, List.any_eq_true, ne_eq, ← Option.map_eq_none_iff (f := DtbNode.address),
    Item.map_address_firstNode, Option.map_eq_none_iff, List.find?_eq_none]
  simp only [not_forall, not_not, exists_prop]

/-- A node that can be reached is searched from its begin on. -/
theorem searchTree_startAt {nops : ℕ} {name : List (BitVec 8)} {ps : List FdtProperty}
    {children : Forest} {e : ℕ} {previous : Option Item}
    (hfollows : Follows previous (.tree nops name ps children e))
    (h : Stored d a (Forest.node nops name ps children e .nil).bytes) (n : ℕ) (cells : ℕ × ℕ) :
    d.searchTree q n (startAt a previous) cells = d.searchTree q n a cells ∧
      startAt a previous < d.getStructOffset + d.getStructSize := by
  have hlen := length_forest_node nops name ps children e
  have hupper := h.upper
  match previous, hfollows with
  | none, _ => exact ⟨rfl, by rw [startAt]; omega⟩
  | some (.close _), _ => exact ⟨rfl, by rw [startAt]; omega⟩
  | some (.tree ..), hnops =>
    obtain ⟨k, rfl⟩ : ∃ k, nops = k + 1 := ⟨nops - 1, by have : 0 < nops := hnops; omega⟩
    refine ⟨?_, by rw [startAt]; omega⟩
    obtain ⟨hskip, hread, -⟩ := token_of_stored h rfl (by decide)
    rw [Forest.bytes, nopBytes, List.append_assoc] at h
    obtain ⟨hskip', hread', -⟩ := token_of_stored (stored_append.mp h).2 rfl (by decide)
    rw [← searchTree_skipNop hskip hread (by decide),
      show a + 4 * (k + 1) = a + fdtNop.length + 4 * k by rw [show fdtNop.length = 4 from rfl]; omega,
      searchTree_skipNop hskip' hread' (by decide)]
    rfl

/-- The end of a node is skipped directly behind a node in it. -/
theorem startAt_close {previous : Option Item} {k : ℕ} (h : Follows previous (.close k)) (a : ℕ) :
    startAt a previous = startAt (a + (Item.close k).bytes.length) (some (.close k)) := by
  match previous, h with
  | some (.tree ..), hk =>
    have hk : k = 0 := hk
    rw [hk]
    rfl

/-- No search begins at an item that cannot be reached. -/
theorem searchStep_not_follows {x : Item} {previous : Option Item} (hfollows : ¬Follows previous x)
    (h : Stored d a x.bytes) (hvalid : x.Valid d) (cells : ℕ × ℕ) :
    d.searchStep q cells (startAt a previous) = .ok (.done none) := by
  cases x with
  | close k =>
    rw [Item.bytes, ← List.append_nil fdtEndNode] at h
    obtain _ | (_ | _) := previous
    · exact searchStep_token h rfl (by decide) (by decide) cells
    · cases k with
      | zero => exact absurd rfl hfollows
      | succ k =>
        rw [nopBytes, List.append_assoc] at h
        exact searchStep_token (stored_append.mp h).2 rfl (by decide) (by decide) cells
    · exact searchStep_token h rfl (by decide) (by decide) cells
  | tree nops name ps children e =>
    obtain _ | (_ | _) := previous
    · exact absurd trivial hfollows
    · have hzero : nops = 0 := Nat.eq_zero_of_not_pos hfollows
      rw [hzero] at h
      obtain ⟨-, hname⟩ := stored_append.mp (stored_append.mp h).2
      exact searchStep_name hvalid.1 (stored_append.mp hname).1 cells
    · exact absurd trivial hfollows

/-- The search behind some items finds the first node, if it is reached. -/
theorem searchLoop_items (hq : q.Decides d onName onProperty) (cells : ℕ × ℕ) :
    ∀ {items : List Item} {a n : ℕ} (previous : Option Item), ItemsAt d t a items → items.length < n →
      ∃ r, loop (d.searchStep q cells) n (startAt a previous) = .ok r ∧
        (Reachable (Item.found onName onProperty) previous items →
          r = itemsFirstNode d onName onProperty cells a items) ∧
        (¬Reachable (Item.found onName onProperty) previous items → r = none)
  | [], a, n, previous, h, hn => by
    have hdone : d.searchStep q cells (startAt a previous) = .ok (.done none) := by
      have hstored := h.stored.toStored
      rw [DeviceTree.tail, itemsBytes, List.flatMap_nil, List.nil_append] at hstored
      have hstored' := hstored
      rw [← List.append_nil fdtEnd] at hstored'
      have htoken := searchStep_token (q := q) hstored' rfl (by decide) (by decide) cells
      match previous with
      | none => exact htoken
      | some (.close _) => exact htoken
      | some (.tree ..) =>
        refine searchStep_end hstored ?_ cells
        rw [h.stored.ends, DeviceTree.tail, itemsBytes, List.flatMap_nil, List.nil_append,
          List.length_append, length_nopBytes, Nat.add_assoc]
        rfl
    exact ⟨none, loop_done hdone (by omega), fun hr => hr.elim, fun _ => rfl⟩
  | x :: items, a, n, previous, h, hn => by
    obtain ⟨hx, hvalid, hitems⟩ := h.cons
    rw [List.length_cons] at hn
    by_cases hfollows : Follows previous x
    · cases x with
      | close k =>
        have hstart := startAt_close hfollows a
        obtain ⟨r, hr, hreach, hnone⟩ := searchLoop_items hq cells (some (.close k)) hitems
          (by omega : items.length < n)
        refine ⟨r, by rw [hstart]; exact hr, fun hreaches => ?_, fun hnot => ?_⟩
        · rw [itemsFirstNode, Item.firstNode, Option.none_or]
          exact hreach (hreaches.2.resolve_left (by simp [Item.found, Item.nodes]))
        · exact hnone fun hreaches => hnot ⟨hfollows, .inr hreaches⟩
      | tree nops name ps children e =>
        obtain ⟨htree, hlt⟩ := searchTree_startAt (q := q) hfollows hx maxIterations cells
        have hfind := searchTree_node hq hvalid h.aligned hx cells
        have hiff := Item.found_iff (d := d) onName onProperty a cells (.tree nops name ps children e)
        rw [← htree] at hfind
        rw [itemsFirstNode, Reachable, hiff]
        cases hnode : Item.firstNode d onName onProperty a cells (.tree nops name ps children e) with
        | some node =>
          rw [Item.firstNode] at hnode
          rw [hnode] at hfind
          refine ⟨some node, loop_done (searchStep_found hlt hfind) (by omega), fun _ => rfl,
            fun hnot => ?_⟩
          exact absurd ⟨hfollows, .inl (by simp)⟩ hnot
        | none =>
          rw [Item.firstNode] at hnode
          rw [hnode] at hfind
          obtain ⟨m, rfl⟩ := Nat.exists_eq_add_of_lt hn
          obtain ⟨r, hr, hreach, hnone⟩ := searchLoop_items hq cells
            (some (.tree nops name ps children e)) hitems
            (by omega : items.length < items.length + 1 + m)
          refine ⟨r, ?_, fun hreaches => ?_, fun hnot => ?_⟩
          · rw [loop_next (searchStep_notFound hlt hfind)]
            exact hr
          · rw [Option.none_or]
            exact hreach (hreaches.2.resolve_left (by simp))
          · exact hnone fun hreaches => hnot ⟨hfollows, .inr hreaches⟩
    · refine ⟨none, loop_done (searchStep_not_follows hfollows hx hvalid cells) (by omega), ?_, ?_⟩
      · exact fun hreaches => absurd hreaches.1 hfollows
      · exact fun _ => rfl

theorem Place.StoredIn.itemsAt {p : Place} (h : p.StoredIn d t) : ItemsAt d t p.after p.rest := by
  have hps := length_properties_mod p.node.properties
  have hc := length_forest_mod p.children
  have haligned := h.aligned
  have hstored := h.stored.append.append.append.append
  rw [length_nopBytes, show fdtEndNode.length = 4 from rfl] at hstored
  refine ⟨?_, h.items, hstored⟩
  rw [Place.after]
  omega

theorem length_le_itemsBytes (items : List Item) : items.length ≤ (itemsBytes items).length := by
  induction items with
  | nil => exact Nat.zero_le _
  | cons x xs ih =>
    have hx : 4 ≤ x.bytes.length := by
      cases x with
      | tree nops name ps children e =>
        have := length_forest_node nops name ps children e
        rw [Item.bytes]
        omega
      | close k =>
        rw [Item.bytes, List.length_append]
        exact Nat.le_add_left ..
    rw [itemsBytes_cons, List.length_append, List.length_cons]
    omega

/-- The node has no children, and the first node behind it is reached. -/
def Place.Resumes (onName : List (BitVec 8) → Bool) (onProperty : FdtProperty → Bool) (p : Place) : Prop :=
  p.children = .nil ∧ Reachable (Item.found onName onProperty) none p.rest

/-- What a search returns that goes on behind a node. -/
theorem search_place (hq : q.Decides d onName onProperty) {p : Place} (h : p.StoredIn d t)
    (cells : ℕ × ℕ) :
    ∃ r, d.search q (some ⟨p.node.address, cells.1, cells.2⟩) = .ok r ∧
      (p.Resumes onName onProperty → r = itemsFirstNode d onName onProperty cells p.after p.rest) ∧
      (¬p.Resumes onName onProperty → r = none) := by
  obtain ⟨hnil, hchildren⟩ := skipToNextNode_place h
  rw [search]
  by_cases hc : p.children = .nil
  · have hlen : p.rest.length < maxIterations := by
      have hlt := h.itemsAt.stored.toStored.length_lt
      have := length_le_itemsBytes p.rest
      rw [DeviceTree.tail, List.length_append] at hlt
      rw [maxIterations]
      omega
    obtain ⟨r, hr, hreach, hnone⟩ := searchLoop_items hq cells none h.itemsAt hlen
    refine ⟨r, ?_, fun hresumes => hreach hresumes.2, fun hnot => hnone fun hr => hnot ⟨hc, hr⟩⟩
    simp only [hnil hc, Exec.ok_bind]
    exact hr
  · refine ⟨none, ?_, fun hresumes => absurd hresumes.1 hc, fun _ => rfl⟩
    simp only [hchildren hc, Exec.ok_bind]
    rfl

/-- It is the first later node in document order, if that is reached. -/
theorem search_place_address (hq : q.Decides d onName onProperty) {p : Place} (h : p.StoredIn d t)
    (cells : ℕ × ℕ) :
    ∃ r, d.search q (some ⟨p.node.address, cells.1, cells.2⟩) = .ok r ∧
      (p.Resumes onName onProperty → r.map DtbNode.address =
        (p.later.find? (TreeNode.found onName onProperty)).map TreeNode.address) ∧
      (¬p.Resumes onName onProperty → r = none) := by
  obtain ⟨r, hr, hreach, hnone⟩ := search_place hq h cells
  refine ⟨r, hr, fun hresumes => ?_, hnone⟩
  rw [hreach hresumes, map_address_itemsFirstNode, Place.later]

/-- There is nothing to be found behind the node, or it is reached. -/
def Place.Continues (onName : List (BitVec 8) → Bool) (onProperty : FdtProperty → Bool) (p : Place) :
    Prop :=
  (∀ node ∈ p.later, ¬node.found onName onProperty) ∨ p.Resumes onName onProperty

/-- The search behind a node returns the first later node exactly if it is reached. -/
theorem search_place_iff (hq : q.Decides d onName onProperty) {p : Place} (h : p.StoredIn d t)
    (cells : ℕ × ℕ) :
    ReturnsFirst (d.search q (some ⟨p.node.address, cells.1, cells.2⟩)) (TreeNode.found onName onProperty)
      p.later ↔ p.Continues onName onProperty := by
  obtain ⟨r, hr, hreach, hnone⟩ := search_place_address hq h cells
  constructor
  · rintro ⟨r', hr', -, hiff⟩
    obtain rfl : r = r' := Except.ok.inj (hr.symm.trans hr')
    by_cases hresumes : p.Resumes onName onProperty
    · exact .inr hresumes
    · exact .inl (hiff.mp (hnone hresumes))
  · intro hcontinues
    refine returnsFirst_of_map ⟨r, hr, ?_⟩
    by_cases hresumes : p.Resumes onName onProperty
    · exact hreach hresumes
    · rw [List.find?_eq_none.mpr (hcontinues.resolve_right hresumes), hnone hresumes]
      rfl

end Resume

/-! ## Loops over the nodes -/

section Outermost

variable (found : TreeNode → Bool)

/-- The nodes that are looked for and not inside of another one, in document order. -/
def Forest.outermost : ℕ → Forest → List Item → List Place
  | _, .nil, _ => []
  | a, .node nops name ps children e siblings, rest =>
    (if found ⟨nameEnd a nops name, name, ps⟩ then [placeOf a nops name ps children e siblings rest]
      else children.outermost (childrenAt a nops name ps) (.close e :: (siblings.items ++ rest))) ++
      siblings.outermost (siblingsAt a nops name ps children e) rest

def Item.outermost (a : ℕ) : Item → List Item → List Place
  | .tree nops name ps children e, rest =>
    (Forest.node nops name ps children e .nil).outermost found a rest
  | .close _, _ => []

def itemsOutermost : ℕ → List Item → List Place
  | _, [] => []
  | a, x :: xs => x.outermost found a xs ++ itemsOutermost (a + x.bytes.length) xs

def DeviceTree.outermost (d : Dtb) (t : DeviceTree) : List Place :=
  t.root.outermost found d.getStructOffset []

theorem Forest.outermost_node (a nops : ℕ) (name : List (BitVec 8)) (ps : List FdtProperty)
    (children : Forest) (e : ℕ) (siblings : Forest) (rest : List Item) :
    (Forest.node nops name ps children e siblings).outermost found a rest =
      (Forest.node nops name ps children e .nil).outermost found a (siblings.items ++ rest) ++
        siblings.outermost found (siblingsAt a nops name ps children e) rest := by
  simp only [Forest.outermost, placeOf, Forest.items, List.nil_append, List.append_nil]

theorem itemsOutermost_items (rest : List Item) : ∀ (a : ℕ) (f : Forest),
    itemsOutermost found a (f.items ++ rest) =
      f.outermost found a rest ++ itemsOutermost found (a + f.bytes.length) rest
  | _, .nil => rfl
  | a, .node nops name ps children e siblings => by
    rw [Forest.items, List.cons_append, itemsOutermost, itemsOutermost_items, Forest.outermost_node,
      Item.outermost, Item.bytes, siblingsAt_eq, List.append_assoc,
      Forest.bytes_node nops name ps children e siblings, List.length_append, Nat.add_assoc]

/-- The first of them is the first node that is looked for. -/
theorem Forest.find?_nodes : ∀ (a : ℕ) (f : Forest) (rest : List Item),
    (f.nodes a).find? found = (f.outermost found a rest).head?.map Place.node
  | _, .nil, _ => rfl
  | a, .node nops name ps children e siblings, rest => by
    rw [Forest.nodes, Forest.outermost, List.find?_cons]
    cases hfound : found ⟨nameEnd a nops name, name, ps⟩ with
    | true => rfl
    | false =>
      rw [if_neg (by simp), List.find?_append, List.head?_append, Option.map_or,
        children.find?_nodes _ (.close e :: (siblings.items ++ rest)), siblings.find?_nodes _ rest]

theorem find?_itemsNodes : ∀ (a : ℕ) (items : List Item),
    (itemsNodes a items).find? found = (itemsOutermost found a items).head?.map Place.node
  | _, [] => rfl
  | a, x :: xs => by
    rw [itemsNodes, itemsOutermost, List.find?_append, List.head?_append, Option.map_or,
      find?_itemsNodes]
    cases x with
    | tree nops name ps children e => rw [Item.nodes, Item.outermost, Forest.find?_nodes]
    | close k => rfl

/-- The others are those behind the first one. -/
theorem Forest.outermost_cons : ∀ {a : ℕ} {f : Forest} {rest : List Item} {p : Place} {ps : List Place},
    f.outermost found a rest = p :: ps →
      ps ++ itemsOutermost found (a + f.bytes.length) rest = itemsOutermost found p.after p.rest
  | a, .node nops name props children e siblings, rest, p, ps, h => by
    have hafter : a + (Forest.node nops name props children e siblings).bytes.length =
        siblingsAt a nops name props children e + siblings.bytes.length := by
      rw [siblingsAt_eq, Forest.bytes_node nops name props children e siblings, List.length_append,
        Nat.add_assoc]
    rw [Forest.outermost] at h
    rw [hafter]
    split_ifs at h with hfound
    · rw [List.singleton_append, List.cons.injEq] at h
      obtain ⟨rfl, rfl⟩ := h
      rw [after_placeOf, placeOf, itemsOutermost_items]
    · cases hc : children.outermost found (childrenAt a nops name props)
          (.close e :: (siblings.items ++ rest)) with
      | nil =>
        rw [hc, List.nil_append] at h
        exact Forest.outermost_cons h
      | cons p' ps' =>
        rw [hc, List.cons_append, List.cons.injEq] at h
        obtain ⟨rfl, rfl⟩ := h
        have hrest := Forest.outermost_cons hc
        rw [itemsOutermost, Item.outermost, List.nil_append, itemsOutermost_items, Item.bytes,
          List.length_append, ← Nat.add_assoc] at hrest
        rw [List.append_assoc]
        exact hrest

theorem itemsOutermost_cons : ∀ {a : ℕ} {items : List Item} {p : Place} {ps : List Place},
    itemsOutermost found a items = p :: ps → ps = itemsOutermost found p.after p.rest
  | a, x :: xs, p, ps, h => by
    rw [itemsOutermost] at h
    cases hx : x.outermost found a xs with
    | nil =>
      rw [hx, List.nil_append] at h
      exact itemsOutermost_cons h
    | cons p' ps' =>
      rw [hx, List.cons_append, List.cons.injEq] at h
      obtain ⟨rfl, rfl⟩ := h
      cases x with
      | tree nops name props children e => exact Forest.outermost_cons found hx
      | close k => cases hx

theorem Forest.length_outermost : ∀ (a : ℕ) (f : Forest) (rest : List Item),
    (f.outermost found a rest).length ≤ f.bytes.length
  | _, .nil, _ => le_rfl
  | a, .node nops name ps children e siblings, rest => by
    have hlen := length_forest_node nops name ps children e
    have hs := siblings.length_outermost (siblingsAt a nops name ps children e) rest
    have hc := children.length_outermost (childrenAt a nops name ps)
      (.close e :: (siblings.items ++ rest))
    rw [Forest.outermost, Forest.bytes_node, List.length_append, List.length_append]
    split_ifs
    · rw [List.length_singleton]
      omega
    · omega

/-- They are places of the forest. -/
theorem Forest.mem_places_of_mem_outermost : ∀ {a : ℕ} {f : Forest} {rest : List Item} {p : Place},
    p ∈ f.outermost found a rest → p ∈ f.places a rest
  | a, .node nops name ps children e siblings, rest, p, h => by
    rw [Forest.outermost, List.mem_append] at h
    rw [Forest.places, List.mem_cons, List.mem_append]
    obtain h | h := h
    · split_ifs at h with hfound
      · exact .inl (List.mem_singleton.mp h)
      · exact .inr (.inl (Forest.mem_places_of_mem_outermost h))
    · exact .inr (.inr (Forest.mem_places_of_mem_outermost h))

end Outermost

section Visits

variable {d : Dtb} {t : DeviceTree} {q : Query} {onName : List (BitVec 8) → Bool}
  {onProperty : FdtProperty → Bool}

/-- A loop that has got the node `p` gets all nodes behind it that are not inside of others, exactly if the
search can go on behind each of them. -/
theorem visits_from (hq : q.Decides d onName onProperty) :
    ∀ {ps : List Place} {p : Place} {n : ℕ} (cells : ℕ × ℕ) (visited : List DtbNode),
      (∀ p' ∈ p :: ps, p'.StoredIn d t) →
      ps = itemsOutermost (TreeNode.found onName onProperty) p.after p.rest → ps.length < n →
      ∃ r, loop (d.visitStep q) n (some ⟨p.node.address, cells.1, cells.2⟩, visited) = .ok r ∧
        (r.map DtbNode.address =
            visited.map DtbNode.address ++ ps.map (fun p' => p'.node.address) ↔
          ∀ p' ∈ p :: ps, p'.Continues onName onProperty)
  | [], p, n, cells, visited, hstored, hps, hn => by
    have hlater : p.later.find? (TreeNode.found onName onProperty) = none := by
      rw [Place.later, find?_itemsNodes, ← hps]
      rfl
    obtain ⟨r, hr, hreach, hnone⟩ := search_place_address hq (hstored p (by simp)) cells
    have hr' : r = none := by
      by_cases hresumes : p.Resumes onName onProperty
      · have := hreach hresumes
        rwa [hlater, Option.map_none, Option.map_eq_none_iff] at this
      · exact hnone hresumes
    refine ⟨visited, loop_done ?_ (by omega), ?_⟩
    · rw [visitStep, hr, hr']
      rfl
    · simp only [List.map_nil, List.append_nil, List.mem_singleton, forall_eq, true_iff]
      exact .inl (List.find?_eq_none.mp hlater)
  | p' :: ps, p, n + 1, cells, visited, hstored, hps, hn => by
    have hlater : p.later.find? (TreeNode.found onName onProperty) = some p'.node := by
      rw [Place.later, find?_itemsNodes, ← hps]
      rfl
    obtain ⟨r, hr, hreach, hnone⟩ := search_place_address hq (hstored p (by simp)) cells
    by_cases hresumes : p.Resumes onName onProperty
    · have hr' := hreach hresumes
      rw [hlater, Option.map_some, Option.map_eq_some_iff] at hr'
      obtain ⟨node, rfl, haddress⟩ := hr'
      obtain ⟨r, hrun, hiff⟩ := visits_from hq (node.addressCells, node.sizeCells)
        (visited ++ [node]) (fun x hx => hstored x (List.mem_cons_of_mem p hx))
        (itemsOutermost_cons _ hps.symm) (by simpa using hn : ps.length < n)
      refine ⟨r, ?_, ?_⟩
      · have hstep : d.visitStep q (some ⟨p.node.address, cells.1, cells.2⟩, visited) =
            .ok (.next (some node, visited ++ [node])) := by
          rw [visitStep, hr]
          rfl
        rw [loop_next hstep, ← hrun, ← haddress]
      · rw [List.forall_mem_cons, ← hiff, List.map_append, List.append_assoc, List.map_cons,
          List.map_cons, haddress]
        exact ⟨fun h => ⟨.inr hresumes, h⟩, fun h => h.2⟩
    · refine ⟨visited, loop_done ?_ (by omega), ?_⟩
      · rw [visitStep, hr, hnone hresumes]
        rfl
      · refine ⟨fun h => ?_, fun h => ?_⟩
        · have := congrArg List.length h
          simp at this
        · have hcontinues := h p (by simp)
          have hnot := hcontinues.resolve_right hresumes
          rw [← List.find?_eq_none, hlater] at hnot
          cases hnot

/-- The same from the start. -/
theorem visits_iff (hq : q.Decides d onName onProperty) (h : t.StoredIn d) :
    ∃ r, d.visits q = .ok r ∧
      (r.map DtbNode.address =
          (t.outermost (TreeNode.found onName onProperty) d).map (fun p => p.node.address) ↔
        ∀ p ∈ t.outermost (TreeNode.found onName onProperty) d, p.Continues onName onProperty) := by
  obtain ⟨r, hr, hmap⟩ := search_start_address hq h
  have hstored : ∀ p ∈ t.outermost (TreeNode.found onName onProperty) d, p.StoredIn d t :=
    fun p hp => DeviceTree.places_storedIn h (Forest.mem_places_of_mem_outermost _ hp)
  have hlen : (t.outermost (TreeNode.found onName onProperty) d).length < 2 ^ 32 := by
    have hsize := structSize_lt d
    have hle := Forest.length_outermost (TreeNode.found onName onProperty) d.getStructOffset t.root []
    rw [h.size, DeviceTree.bytes, List.length_append] at hsize
    rw [DeviceTree.outermost]
    omega
  rw [DeviceTree.nodes, Forest.find?_nodes _ _ _ [], ← DeviceTree.outermost] at hmap
  cases hps : t.outermost (TreeNode.found onName onProperty) d with
  | nil =>
    rw [hps, List.head?_nil, Option.map_none, Option.map_none, Option.map_eq_none_iff] at hmap
    refine ⟨[], loop_done ?_ maxIterations_pos, by simp⟩
    rw [visitStep, hr, hmap]
    rfl
  | cons p ps =>
    rw [hps, List.head?_cons, Option.map_some, Option.map_some, Option.map_eq_some_iff] at hmap
    obtain ⟨node, rfl, haddress⟩ := hmap
    rw [hps] at hstored hlen
    have hrest : ps = itemsOutermost (TreeNode.found onName onProperty) p.after p.rest := by
      have := Forest.outermost_cons _ hps
      rwa [itemsOutermost, List.append_nil] at this
    obtain ⟨n, hn⟩ := Nat.exists_eq_succ_of_ne_zero maxIterations_pos.ne'
    obtain ⟨r, hrun, hiff⟩ := visits_from hq (node.addressCells, node.sizeCells) [node] hstored hrest
      (by rw [maxIterations] at hn; simp at hlen; omega : ps.length < n)
    refine ⟨r, ?_, ?_⟩
    · have hstep : d.visitStep q (none, []) = .ok (.next (some node, [node])) := by
        rw [visitStep, hr]
        rfl
      rw [visits, hn, loop_next hstep, ← hrun, ← haddress]
    · rw [← hiff, List.map_cons, List.map_cons, haddress]
      rfl

/-- How a search goes on behind the nodes of a tree, and what a loop over all of them gets. -/
structure IteratesIff (d : Dtb) (t : DeviceTree) (q : Query) (onName : List (BitVec 8) → Bool)
    (onProperty : FdtProperty → Bool) : Prop where
  next : ∀ p ∈ t.places d, ∀ cells : ℕ × ℕ,
    ReturnsFirst (d.search q (some ⟨p.node.address, cells.1, cells.2⟩))
      (TreeNode.found onName onProperty) p.later ↔ p.Continues onName onProperty
  loop : ∃ visited, d.visits q = .ok visited ∧
    (visited.map DtbNode.address =
        (t.outermost (TreeNode.found onName onProperty) d).map (fun p => p.node.address) ↔
      ∀ p ∈ t.outermost (TreeNode.found onName onProperty) d, p.Continues onName onProperty)

/-- Both searches return the first later node, and loops over them get all nodes, exactly behind nodes
without children whose next match is reached. -/
theorem search_next_iff (h : t.StoredIn d) {name compatible : List (BitVec 8)} (hname : IsString name)
    (hcompatible : IsString compatible) :
    IteratesIff d t (nodeNamed name) (isNamed name) (fun _ => false) ∧
      IteratesIff d t (nodeCompatible compatible) (fun _ => false) (hasString compatible) := by
  have hplaces : ∀ p ∈ t.places d, p.StoredIn d t := fun p hp => DeviceTree.places_storedIn h hp
  have hq := nodeNamed_decides (d := d) hname
  have hq' := nodeCompatible_decides (d := d) hcompatible
  exact ⟨⟨fun p hp cells => search_place_iff hq (hplaces p hp) cells, visits_iff hq h⟩,
    ⟨fun p hp cells => search_place_iff hq' (hplaces p hp) cells, visits_iff hq' h⟩⟩

theorem search_next_iff_sample :
    IteratesIff sampleDtb sampleTree (nodeNamed [0x61#8]) (isNamed [0x61#8]) (fun _ => false) ∧
      IteratesIff sampleDtb sampleTree (nodeCompatible [0x63#8]) (fun _ => false)
        (hasString [0x63#8]) :=
  search_next_iff sampleTree_storedIn (by simp [IsString]) (by simp [IsString])

/-- The first device of the example, with what is behind it. -/
def samplePlace : Place :=
  placeOf (sampleDtb.getStructOffset + 8) 0 [0x61#8]
    [⟨1, 0, propCompatible, encodeStrings [[0x63#8]]⟩] .nil 0
    (.node 0 [0x62#8] [] .nil 0 (sampleDevice .nil)) [.close 0]

/-- The second device of the example is not found behind the first one, because of the node between. -/
theorem search_next_misses :
    ∃ n, sampleDtb.searchNode [0x61#8] none = .ok (some n) ∧
      sampleDtb.searchNode [0x61#8] (some n) = .ok none ∧
      samplePlace ∈ sampleTree.places sampleDtb ∧ samplePlace.node.address = n.address ∧
      ∃ node ∈ samplePlace.later, isNamed [0x61#8] node.name := by
  have hname : IsString [0x61#8] := by simp [IsString]
  have hq := nodeNamed_decides (d := sampleDtb) hname
  have hmem : samplePlace ∈ sampleTree.places sampleDtb :=
    List.mem_cons_of_mem _ (List.mem_cons_self ..)
  obtain ⟨r, hr, hmap⟩ := search_start_address hq sampleTree_storedIn
  have hfind : (sampleTree.nodes sampleDtb).find? (TreeNode.found (isNamed [0x61#8]) fun _ => false) =
      some samplePlace.node := rfl
  rw [hfind, Option.map_some, Option.map_eq_some_iff] at hmap
  obtain ⟨n, rfl, hn⟩ := hmap
  obtain ⟨r, hr', -, hnone⟩ := search_place_address hq
    (DeviceTree.places_storedIn sampleTree_storedIn hmem)
    (n.addressCells, n.sizeCells)
  have hnot : ¬samplePlace.Resumes (isNamed [0x61#8]) fun _ => false := by
    rintro ⟨-, -, hb | ⟨hfollows, -⟩⟩
    · exact absurd hb (by decide)
    · exact absurd hfollows (Nat.lt_irrefl 0)
  rw [hnone hnot, ← hn] at hr'
  exact ⟨n, hr, hr', hmem, hn.symm, _, List.mem_cons_of_mem _ (List.mem_cons_self ..), rfl⟩

end Visits

end MiniVisor
