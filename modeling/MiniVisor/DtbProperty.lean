import MiniVisor.DtbIteration

/-!
# The properties of a node that was found

`Returned` are the nodes that the searches return, from the start or from each other. Their addresses are
those of nodes of the tree (`Returned.mem_nodes`), which differ from each other (`nodes_address_inj`).

Behind the name of a node its properties lie, and behind them there is a child or the end of the
node, so that `getProperty` does not get any further. `firstProperty` is what it returns, with the
cells up to there, and `getProperty_returned` says where that is. -/

namespace MiniVisor

open Machine Dtb

/-! ## What the searches return -/

/-- What a search looks for. -/
inductive Criterion
  | name (nodeName : List (BitVec 8))
  | compatible (compatible : List (BitVec 8))

namespace Criterion

def text : Criterion → List (BitVec 8)
  | .name s => s
  | .compatible s => s

def query : Criterion → Query
  | .name s => nodeNamed s
  | .compatible s => nodeCompatible s

def onName : Criterion → List (BitVec 8) → Bool
  | .name s => isNamed s
  | .compatible _ => fun _ => false

def onProperty : Criterion → FdtProperty → Bool
  | .name _ => fun _ => false
  | .compatible s => hasString s

theorem decides {c : Criterion} (hc : IsString c.text) (d : Dtb) :
    c.query.Decides d c.onName c.onProperty := by
  cases c with
  | name s => exact nodeNamed_decides hc
  | compatible s => exact nodeCompatible_decides hc

end Criterion

/-- A node that a search has returned, which began at the start or behind a node that was returned
before. -/
inductive Dtb.Returned (d : Dtb) : DtbNode → Prop
  | search {c : Criterion} {currentNode : Option DtbNode} {node : DtbNode} (hc : IsString c.text)
      (hcurrent : ∀ n ∈ currentNode, d.Returned n)
      (h : d.search c.query currentNode = .ok (some node)) : d.Returned node

section Nodes

variable {d : Dtb} {t : DeviceTree}

/-- The nodes of a forest lie inside of it. -/
theorem Forest.address_bounds : ∀ {a : ℕ} {f : Forest} {x : TreeNode}, x ∈ f.nodes a →
    a < x.address ∧ x.address < a + f.bytes.length
  | a, .node nops name ps children e siblings, x, h => by
    have hlen := length_forest_node nops name ps children e
    have hsib := siblingsAt_eq a nops name ps children e
    rw [Forest.bytes_node, List.length_append]
    rw [Forest.nodes, List.mem_cons, List.mem_append] at h
    obtain rfl | h | h := h
    · simp only [nameEnd, length_nopBytes]
      omega
    · have := Forest.address_bounds h
      rw [childrenAt, nameEnd, length_nopBytes] at this
      omega
    · have := Forest.address_bounds h
      omega

theorem Forest.pairwise_address : ∀ (a : ℕ) (f : Forest),
    (f.nodes a).Pairwise fun x y => x.address < y.address
  | _, .nil => List.Pairwise.nil
  | a, .node nops name ps children e siblings => by
    rw [Forest.nodes, List.pairwise_cons, List.pairwise_append]
    refine ⟨fun x hx => ?_, children.pairwise_address _, siblings.pairwise_address _,
      fun x hx y hy => ?_⟩
    · obtain hx | hx := List.mem_append.mp hx
      · have := Forest.address_bounds hx
        rw [childrenAt] at this
        simp only
        omega
      · have := Forest.address_bounds hx
        rw [siblingsAt, childrenAt] at this
        simp only
        omega
    · have hx := Forest.address_bounds hx
      have hy := Forest.address_bounds hy
      rw [siblingsAt] at hy
      omega

/-- Two nodes of a tree have different addresses. -/
theorem nodes_address_inj {x y : TreeNode} (hx : x ∈ t.nodes d) (hy : y ∈ t.nodes d)
    (h : x.address = y.address) : x = y := by
  have hpairwise := List.pairwise_map.mpr (Forest.pairwise_address d.getStructOffset t.root)
  exact List.inj_on_of_nodup_map (hpairwise.imp Nat.ne_of_lt) hx hy h

theorem mem_nodes_iff {node : TreeNode} : node ∈ t.nodes d ↔ ∃ p ∈ t.places d, p.node = node := by
  rw [DeviceTree.nodes, ← Forest.map_node_places _ _ [], List.mem_map, DeviceTree.places]

/-- What is behind a node of the tree belongs to the tree. -/
theorem mem_nodes_of_later {p : Place} (hp : p ∈ t.places d) {node : TreeNode} (h : node ∈ p.later) :
    node ∈ t.nodes d := by
  obtain ⟨before, hsplit⟩ := Forest.nodes_split hp
  rw [itemsNodes, List.append_nil] at hsplit
  rw [DeviceTree.nodes, hsplit]
  simp [h]

/-- The searches return nodes of the tree. -/
theorem Dtb.Returned.mem_nodes (h : t.StoredIn d) {n : DtbNode} (hn : d.Returned n) :
    ∃ node ∈ t.nodes d, node.address = n.address := by
  induction hn with
  | @search c currentNode n hc _ hsearch ih =>
    have hq := c.decides hc d
    cases currentNode with
    | none =>
      obtain ⟨r, hr, hmap⟩ := search_start_address hq h
      rw [Except.ok.inj (hr.symm.trans hsearch), Option.map_some] at hmap
      obtain ⟨node, hfind, haddress⟩ := Option.map_eq_some_iff.mp hmap.symm
      exact ⟨node, List.mem_of_find?_eq_some hfind, haddress⟩
    | some m =>
      obtain ⟨node, hnode, haddress⟩ := ih m rfl
      obtain ⟨p, hp, rfl⟩ := mem_nodes_iff.mp hnode
      obtain ⟨r, hr, hreach, hnone⟩ := search_place_address hq (DeviceTree.places_storedIn h hp)
        (m.addressCells, m.sizeCells)
      rw [haddress] at hr
      have hr' := Except.ok.inj (hr.symm.trans hsearch)
      by_cases hresumes : p.Resumes c.onName c.onProperty
      · have hmap := hreach hresumes
        rw [hr', Option.map_some] at hmap
        obtain ⟨later, hfind, hlater⟩ := Option.map_eq_some_iff.mp hmap.symm
        exact ⟨later, mem_nodes_of_later hp (List.mem_of_find?_eq_some hfind), hlater⟩
      · rw [hnone hresumes] at hr'
        cases hr'

end Nodes

/-! ## Looking up a property -/

/-- What a lookup returns for properties that begin at `a`. -/
def firstProperty (d : Dtb) (name : List (BitVec 8)) :
    ℕ → List FdtProperty → ℕ × ℕ → Option DtbProperty
  | _, [], _ => none
  | a, p :: ps, cells =>
    let own := p.cellsBehind d a cells
    if p.name = name then some ⟨a + 4 * p.nops + 12, own.1, own.2, p.value.length⟩
    else firstProperty d name (a + p.bytes.length) ps own

/-- `r` is where the value of the first property of that name lies. It is nothing, if the node itself does
not have any. -/
def TreeNode.IsLookup (d : Dtb) (node : TreeNode) (name : List (BitVec 8)) :
    Option DtbProperty → Prop
  | some info => ∃ before p after, node.properties = before ++ p :: after ∧
      (∀ x ∈ before, x.name ≠ name) ∧ p.name = name ∧
      info.address = node.address + (propertiesBytes before).length + 4 * p.nops + 12 ∧
      info.len = p.value.length ∧ HoldsAt d.memory info.address p.value
  | none => ∀ p ∈ node.properties, p.name ≠ name

section Lookup

variable {d : Dtb} {t : DeviceTree} {name : List (BitVec 8)}

/-- Where the value of a property lies. -/
theorem stored_value {p : FdtProperty} {a : ℕ} (h : Stored d a p.bytes) :
    Stored d (a + 4 * p.nops + 12) p.value := by
  obtain ⟨-, h⟩ := stored_append.mp h
  obtain ⟨-, h⟩ := stored_append.mp h
  obtain ⟨-, h⟩ := stored_append.mp h
  obtain ⟨-, h⟩ := stored_append.mp h
  rw [length_nopBytes] at h
  exact (stored_append.mp h).1

/-- One property : it is the one that is asked for, or the loop goes on behind it. -/
theorem getPropertyStep_eq (hname : IsString name) {p : FdtProperty} (hp : p.Valid d) {a : ℕ}
    (h : Stored d a p.bytes) (hend : a + p.bytes.length < d.getStructOffset + d.getStructSize)
    {pointer : ℕ} (hpointer : skipPadding pointer = a) (cells : ℕ × ℕ) :
    d.getPropertyStep name (pointer, cells) =
      if p.name = name then .ok (.done (some ⟨a + 4 * p.nops + 12, (p.cellsBehind d a cells).1,
        (p.cellsBehind d a cells).2, p.value.length⟩))
      else .ok (.next (a + 4 * p.nops + 12 + p.value.length, p.cellsBehind d a cells)) := by
  obtain ⟨hskip, htoken, h⟩ := token_of_stored h rfl (by decide)
  obtain ⟨hlen, h⟩ := stored_append.mp h
  obtain ⟨hoffset, -⟩ := stored_append.mp h
  have hlen' := readNode_of_stored hlen rfl
  have hoffset' := readNode_of_stored hoffset rfl
  rw [show (toBeBytes p.value.length).length = 4 from rfl] at hoffset'
  have hbytes := length_property p
  have hcells := checkAddressAndSizeCells_eq (a := a) hp cells (by omega)
  rw [getPropertyStep, hpointer]
  simp only [hskip, Exec.ok_bind, htoken, fdtTokenByte, hlen', hoffset',
    fromBeBytes_toBeBytes hp.length32, fromBeBytes_toBeBytes hp.offset32, hcells,
    compareNameSegment_eq hp hname]
  rw [if_neg (by simp)]
  by_cases hp' : p.name = name
  · simp only [hp', decide_true, if_true]
    rfl
  · simp only [hp', decide_false, if_false]
    rfl

/-- The loop goes through the properties and ends behind them. -/
theorem getProperty_loop (hname : IsString name) : ∀ {ps : List FdtProperty} {a pointer n : ℕ}
    (cells : ℕ × ℕ), (∀ p ∈ ps, p.Valid d) → a % 4 = 0 → Stored d a (propertiesBytes ps) →
      a + (propertiesBytes ps).length < d.getStructOffset + d.getStructSize →
      (∀ pointer' cells', skipPadding pointer' = a + (propertiesBytes ps).length →
        d.getPropertyStep name (pointer', cells') = .ok (.done none)) →
      skipPadding pointer = a → ps.length < n →
      loop (d.getPropertyStep name) n (pointer, cells) = .ok (firstProperty d name a ps cells)
  | [], a, pointer, n, cells, _, _, _, _, hbehind, hpointer, hn =>
    loop_done (hbehind pointer cells hpointer) (by omega)
  | p :: ps, a, pointer, n + 1, cells, hvalid, ha, h, hend, hbehind, hpointer, hn => by
    rw [propertiesBytes_cons, List.length_append] at hend hbehind
    rw [propertiesBytes_cons] at h
    rw [List.length_cons] at hn
    obtain ⟨hfirst, hrest⟩ := stored_append.mp h
    have hmod := length_property_mod p
    have hbytes := length_property p
    have hstep := getPropertyStep_eq hname (hvalid p (by simp)) hfirst (by omega) hpointer cells
    have hnext : skipPadding (a + 4 * p.nops + 12 + p.value.length) = a + p.bytes.length := by
      rw [skipPadding_eq (by omega), Nat.add_assoc, Nat.add_assoc, alignUp_add ha, ← Nat.add_assoc,
        alignUp_add (by omega)]
      omega
    rw [firstProperty]
    by_cases hp : p.name = name
    · rw [if_pos hp] at hstep ⊢
      exact loop_done hstep (by omega)
    · rw [if_neg hp] at hstep ⊢
      rw [loop_next hstep]
      refine getProperty_loop hname _ (fun x hx => hvalid x (by simp [hx])) (by omega) hrest (by omega)
        (fun pointer' cells' hpointer' => hbehind pointer' cells' ?_) hnext (by omega)
      rw [hpointer', Nat.add_assoc]

/-- Behind the properties of a node there is a child or its end. -/
theorem Place.StoredIn.token_behind {p : Place} (h : p.StoredIn d t) :
    ∃ (k : ℕ) (token rest : List (BitVec 8)), token.length = 4 ∧ token ≠ fdtNop ∧ token ≠ fdtProp ∧
      Stored d (p.node.address + (propertiesBytes p.node.properties).length)
        (nopBytes k ++ (token ++ rest)) := by
  have hrest := (stored_append.mp h.stored.toStored).2
  cases hc : p.children with
  | nil =>
    rw [hc, Forest.bytes, List.nil_append] at hrest
    exact ⟨p.endNops, fdtEndNode, _, rfl, by decide, by decide, hrest⟩
  | node nops name ps children e siblings =>
    rw [hc, Forest.bytes] at hrest
    simp only [List.append_assoc] at hrest
    exact ⟨nops, fdtBeginNode, _, rfl, by decide, by decide, hrest⟩

/-- What a lookup returns at a node of the tree. -/
theorem getProperty_place (hname : IsString name) {p : Place} (h : p.StoredIn d t) (cells : ℕ × ℕ) :
    d.getProperty ⟨p.node.address, cells.1, cells.2⟩ name =
      .ok (firstProperty d name p.node.address p.node.properties cells) := by
  have hprops := (stored_append.mp h.stored.toStored).1
  obtain ⟨k, token, rest, hlen, hnop, hprop, hbehind⟩ := h.token_behind
  have hupper := hbehind.upper
  rw [List.length_append, List.length_append, hlen] at hupper
  have hself : skipPadding p.node.address = p.node.address := by
    rw [skipPadding_eq h.pos, alignUp_of_mod h.aligned]
  refine getProperty_loop hname cells h.properties h.aligned hprops (by omega) ?_ hself ?_
  · intro pointer' cells' hpointer'
    obtain ⟨hskip, hread, -⟩ := token_of_stored hbehind hlen hnop
    rw [getPropertyStep, hpointer']
    simp only [hskip, Exec.ok_bind, hread, ne_eq, Option.some.injEq, hprop, not_false_eq_true, if_true]
    rfl
  · have := hprops.length_lt
    have := length_le_propertiesBytes p.node.properties
    rw [maxIterations]
    omega

/-- It is the first property of that name. -/
theorem isLookup_firstProperty : ∀ {a : ℕ} {ps : List FdtProperty} (cells : ℕ × ℕ),
    Stored d a (propertiesBytes ps) →
      TreeNode.IsLookup d ⟨a, [], ps⟩ name (firstProperty d name a ps cells)
  | _, [], _, _ => List.forall_mem_nil _
  | a, p :: ps, cells, h => by
    rw [propertiesBytes_cons] at h
    obtain ⟨hfirst, hrest⟩ := stored_append.mp h
    rw [firstProperty]
    by_cases hp : p.name = name
    · have hvalue := (stored_value hfirst).holds
      rw [if_pos hp]
      exact ⟨[], p, ps, rfl, List.forall_mem_nil _, hp, rfl, rfl, hvalue⟩
    · have ih := isLookup_firstProperty (p.cellsBehind d a cells) hrest
      rw [if_neg hp]
      cases hinfo : firstProperty d name (a + p.bytes.length) ps (p.cellsBehind d a cells) with
      | none =>
        rw [hinfo] at ih
        exact List.forall_mem_cons.mpr ⟨hp, ih⟩
      | some info =>
        rw [hinfo] at ih
        obtain ⟨before, p', after, hps, hbefore, hname, haddress, hlen, hvalue⟩ := ih
        refine ⟨p :: before, p', after, congrArg (p :: ·) hps,
          List.forall_mem_cons.mpr ⟨hp, hbefore⟩, hname, ?_, hlen, hvalue⟩
        rw [haddress, propertiesBytes_cons, List.length_append]
        simp only
        omega

/-- At each node that a search has returned, a lookup finds the first property of that name of the very
node, and nothing if the node has none. -/
theorem getProperty_returned (h : t.StoredIn d) {n : DtbNode} (hn : d.Returned n)
    (hname : IsString name) :
    ∃ node ∈ t.nodes d, (∀ x ∈ t.nodes d, x.address = n.address ↔ x = node) ∧
      ∃ r, d.getProperty n name = .ok r ∧ node.IsLookup d name r := by
  obtain ⟨node, hnode, haddress⟩ := hn.mem_nodes h
  refine ⟨node, hnode, fun x hx => ⟨fun hx' => nodes_address_inj hx hnode (hx'.trans haddress.symm),
    fun hx' => hx' ▸ haddress⟩, ?_⟩
  obtain ⟨p, hp, rfl⟩ := mem_nodes_iff.mp hnode
  have hstored := DeviceTree.places_storedIn h hp
  have hrun := getProperty_place hname hstored (n.addressCells, n.sizeCells)
  rw [haddress] at hrun
  refine ⟨_, hrun, ?_⟩
  rw [← haddress]
  exact isLookup_firstProperty _ (stored_append.mp hstored.stored.toStored).1

/-- The first device of the example. -/
def sampleNode : DtbNode := ⟨samplePlace.node.address, defaultAddressCells, defaultSizeCells⟩

theorem sampleNode_returned : sampleDtb.Returned sampleNode := by
  have hname : IsString (Criterion.name [0x61#8]).text := by simp [IsString, Criterion.text]
  have hsearch := search_start (Criterion.decides hname sampleDtb) sampleTree_storedIn
  have hfirst : sampleTree.root.firstNode sampleDtb (Criterion.name [0x61#8]).onName
      (Criterion.name [0x61#8]).onProperty sampleDtb.getStructOffset
      (defaultAddressCells, defaultSizeCells) = some sampleNode := by
    decide +kernel
  rw [hfirst] at hsearch
  exact .search hname (fun n hn => absurd hn (Option.not_mem_none n)) hsearch

theorem getProperty_returned_sample :
    ∃ node ∈ sampleTree.nodes sampleDtb,
      (∀ x ∈ sampleTree.nodes sampleDtb, x.address = sampleNode.address ↔ x = node) ∧
      ∃ r, sampleDtb.getProperty sampleNode propCompatible = .ok r ∧
        node.IsLookup sampleDtb propCompatible r :=
  getProperty_returned sampleTree_storedIn sampleNode_returned isString_propCompatible

end Lookup

end MiniVisor
