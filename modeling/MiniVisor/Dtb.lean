import MiniVisor.Bytes

/-!
# The device tree in memory

`dtb.rs` searches the flattened device tree where it lies. The two searches differ in what they compare :
the name of a node (`nodeNamed`), or the strings of its property `compatible` (`nodeCompatible`). The
rest is `searchTree` and `searchBody`, one for the begin of a node and one for the loop over what is in it.

`none` is the source's `Err(())`. The source's loops and its recursion have no bound; they have one here,
which is larger than any tree.
-/

namespace MiniVisor

open Machine

/-- The memory, and where the header of the tree is. -/
structure Dtb where
  memory : ℕ → BitVec 8
  header : ℕ

structure DtbNode where
  address : ℕ
  addressCells : ℕ
  sizeCells : ℕ
  deriving DecidableEq, Repr

structure DtbProperty where
  address : ℕ
  addressCells : ℕ
  sizeCells : ℕ
  len : ℕ
  deriving DecidableEq, Repr

namespace Dtb

def fdtTokenByte : ℕ := 4
def fdtBeginNode : List (BitVec 8) := [0x00, 0x00, 0x00, 0x01]
def fdtEndNode : List (BitVec 8) := [0x00, 0x00, 0x00, 0x02]
def fdtProp : List (BitVec 8) := [0x00, 0x00, 0x00, 0x03]
def fdtNop : List (BitVec 8) := [0x00, 0x00, 0x00, 0x04]
def fdtEnd : List (BitVec 8) := [0x00, 0x00, 0x00, 0x09]

/-- `#address-cells`. -/
def propAddressCells : List (BitVec 8) :=
  [0x23, 0x61, 0x64, 0x64, 0x72, 0x65, 0x73, 0x73, 0x2d, 0x63, 0x65, 0x6c, 0x6c, 0x73]

/-- `#size-cells`. -/
def propSizeCells : List (BitVec 8) :=
  [0x23, 0x73, 0x69, 0x7a, 0x65, 0x2d, 0x63, 0x65, 0x6c, 0x6c, 0x73]

/-- `reg`. -/
def propReg : List (BitVec 8) := [0x72, 0x65, 0x67]

/-- `compatible`. -/
def propCompatible : List (BitVec 8) :=
  [0x63, 0x6f, 0x6d, 0x70, 0x61, 0x74, 0x69, 0x62, 0x6c, 0x65]

def defaultAddressCells : ℕ := 2
def defaultSizeCells : ℕ := 1

/-- More iterations than any loop over the tree has. -/
def maxIterations : ℕ := 2 ^ 64

variable (d : Dtb)

/-- A field of `FdtHeader`. -/
def headerField (offset : ℕ) : ℕ :=
  fromBeBytes (bytesAt d.memory (d.header + offset) 4)

def getStructOffset : ℕ := d.header + d.headerField 8
def getStructSize : ℕ := d.headerField 36
def getStringOffset : ℕ := d.header + d.headerField 12
def getStringSize : ℕ := d.headerField 32

/-- `read_node`. -/
def readNode (address : ℕ) : Option (List (BitVec 8)) :=
  if d.getStructOffset + d.getStructSize ≤ address then none
  else some (bytesAt d.memory address fdtTokenByte)

/-- `skip_nop`. -/
def skipNop (pointer : ℕ) : Exec (Option ℕ) :=
  loop (fun p =>
    match d.readNode p with
    | none => .ok (.done none)
    | some token => if token = fdtNop then .ok (.next (p + fdtTokenByte)) else .ok (.done (some p)))
    maxIterations pointer

/-- `skip_padding`, which clears the low bits of `pointer - 1`. -/
def skipPadding (pointer : ℕ) : ℕ :=
  ((pointer - 1) >>> 2) <<< 2 + fdtTokenByte

/-- The loop that looks for the end of a string. -/
def skipString (pointer : ℕ) : Exec ℕ :=
  loop (fun p => if d.memory p ≠ 0#8 then .ok (.next (p + 1)) else .ok (.done (p + 1)))
    maxIterations pointer

/-- `compare_string`. All of its exits skip the rest of the string. -/
def compareString (pointer : ℕ) (name delimiter : List (BitVec 8)) : Exec (Bool × ℕ) := do
  let (same, p) := matchBytes d.memory name pointer
  let found := same && (delimiter ++ [0#8]).contains (d.memory p)
  let p ← d.skipString p
  pure (found, skipPadding p)

/-- `compare_name_segment`. -/
def compareNameSegment (nameOffset : ℕ) (name delimiter : List (BitVec 8)) : Option Bool :=
  if d.getStringSize ≤ nameOffset then none
  else
    let (same, p) := matchBytes d.memory name (d.getStringOffset + nameOffset)
    some (same && (delimiter ++ [0#8]).contains (d.memory p))

/-- `check_address_and_size_cells`. -/
def checkAddressAndSizeCells (nameSegment pointer : ℕ) (cells : ℕ × ℕ) : Option (ℕ × ℕ) := do
  if ← d.compareNameSegment nameSegment propAddressCells [] then
    pure (fromBeBytes (← d.readNode pointer), cells.2)
  else if ← d.compareNameSegment nameSegment propSizeCells [] then
    pure (cells.1, fromBeBytes (← d.readNode pointer))
  else pure cells

/-- One iteration of the loop of `_is_device_compatible`. -/
def compatibleStep (info : DtbProperty) (compatible : List (BitVec 8)) :
    ℕ × Bool → Exec (Iter (ℕ × Bool) Bool)
  | (p, skip) =>
    if p < info.len then
      if skip then .ok (.next (p + 1, d.memory (info.address + p) ≠ 0#8))
      else
        match matchBytes d.memory (compatible ++ [0#8]) (info.address + p) with
        | (true, _) => .ok (.done true)
        | (false, q) => .ok (.next (q - info.address, true))
    else .ok (.done false)

/-- `_is_device_compatible`. -/
def isDeviceCompatible (info : DtbProperty) (compatible : List (BitVec 8)) : Exec Bool :=
  loop (d.compatibleStep info compatible) maxIterations (0, false)

/-! ## The searches -/

/-- What a search compares : `enter` the name of a node, from behind its token up to behind its name, and
`property` a property, given the offset of its name. -/
structure Query where
  enter : Dtb → ℕ → Exec (Bool × ℕ)
  property : Dtb → ℕ → DtbProperty → Exec (Option Bool)

/-- What `_search_node` compares. -/
def nodeNamed (nodeName : List (BitVec 8)) : Query where
  enter d pointer := d.compareString pointer nodeName [0x40]
  property _ _ _ := .ok (some false)

/-- What `_search_node_by_compatible` compares. -/
def nodeCompatible (compatible : List (BitVec 8)) : Query where
  enter d pointer := do
    let p ← d.skipString pointer
    pure (false, skipPadding p)
  property d nameSegment info :=
    match d.compareNameSegment nameSegment propCompatible [] with
    | none => .ok none
    | some false => .ok (some false)
    | some true => do pure (some (← d.isDeviceCompatible info compatible))

/-- How a search of a part of the tree ends. -/
inductive Outcome
  | found (node : DtbNode)
  | notFound (pointer : ℕ)
  | failed
  deriving DecidableEq, Repr

mutual

/-- `_search_node` and `_search_node_by_compatible`, up to their loop. -/
def searchTree (q : Query) : ℕ → ℕ → ℕ × ℕ → Exec Outcome
  | 0, _, _ => .error .outOfFuel
  | fuel + 1, pointer, cells => do
    match ← d.skipNop pointer with
    | none => pure .failed
    | some p =>
      if d.readNode p ≠ some fdtBeginNode then pure .failed
      else do
        let (matches_, p) ← q.enter d (p + fdtTokenByte)
        if matches_ then pure (.found ⟨p, cells.1, cells.2⟩) else searchBody q fuel p p cells

/-- The loop of both, for the node at `address`. -/
def searchBody (q : Query) : ℕ → ℕ → ℕ → ℕ × ℕ → Exec Outcome
  | 0, _, _, _ => .error .outOfFuel
  | fuel + 1, address, pointer, cells => do
    match ← d.skipNop (skipPadding pointer) with
    | none => pure .failed
    | some p =>
      match d.readNode p with
      | none => pure .failed
      | some token =>
        if token = fdtBeginNode then
          match ← searchTree q fuel p cells with
          | .found node => pure (.found node)
          | .failed => pure .failed
          | .notFound p => searchBody q fuel address p cells
        else if token = fdtEndNode then pure (.notFound (p + fdtTokenByte))
        else if token = fdtProp then
          match d.readNode (p + fdtTokenByte), d.readNode (p + fdtTokenByte + 4) with
          | some len, some nameSegment =>
            let len := fromBeBytes len
            let nameSegment := fromBeBytes nameSegment
            let p := p + fdtTokenByte + 4 + 4
            match d.checkAddressAndSizeCells nameSegment p cells with
            | none => pure .failed
            | some cells => do
              match ← q.property d nameSegment ⟨p, cells.1, cells.2, len⟩ with
              | none => pure .failed
              | some true => pure (.found ⟨address, cells.1, cells.2⟩)
              | some false => searchBody q fuel address (p + len) cells
          | _, _ => pure .failed
        else pure .failed

end

/-- `_skip_to_next_node`. -/
def skipToNextNode : ℕ → ℕ → Exec (Option ℕ)
  | 0, _ => .error .outOfFuel
  | fuel + 1, pointer => do
    match ← d.skipNop (skipPadding pointer) with
    | none => pure none
    | some p =>
      match d.readNode p with
      | none => pure none
      | some token =>
        if token = fdtBeginNode then
          match ← skipToNextNode fuel (p + fdtTokenByte) with
          | none => pure none
          | some p => skipToNextNode fuel p
        else if token = fdtEnd then pure none
        else if token = fdtEndNode then pure (some (p + fdtTokenByte))
        else if token = fdtProp then
          match d.readNode (p + fdtTokenByte) with
          | none => pure none
          | some len => skipToNextNode fuel (p + fdtTokenByte + 4 + 4 + fromBeBytes len)
        else pure none

/-- One iteration of the loop of `search_node` and `search_node_by_compatible`. -/
def searchStep (q : Query) (cells : ℕ × ℕ) (pointer : ℕ) : Exec (Iter ℕ (Option DtbNode)) :=
  if d.readNode pointer = none then .ok (.done none)
  else do
    match ← d.searchTree q maxIterations pointer cells with
    | .found node => pure (.done (some node))
    | .notFound p => pure (.next (p + fdtTokenByte))
    | .failed => pure (.done none)

/-- The loop of `search_node` and `search_node_by_compatible`. -/
def searchLoop (q : Query) (pointer : ℕ) (cells : ℕ × ℕ) : Exec (Option DtbNode) :=
  loop (d.searchStep q cells) maxIterations pointer

/-- `search_node` and `search_node_by_compatible`. -/
def search (q : Query) : Option DtbNode → Exec (Option DtbNode)
  | some c => do
    match ← d.skipToNextNode maxIterations c.address with
    | none => pure none
    | some pointer => d.searchLoop q pointer (c.addressCells, c.sizeCells)
  | none => d.searchLoop q d.getStructOffset (defaultAddressCells, defaultSizeCells)

/-- One iteration of a loop like that of `launch_cpu`, that goes on behind the node it has got. -/
def visitStep (q : Query) : Option DtbNode × List DtbNode →
    Exec (Iter (Option DtbNode × List DtbNode) (List DtbNode))
  | (currentNode, visited) => do
    match ← d.search q currentNode with
    | none => pure (.done visited)
    | some node => pure (.next (some node, visited ++ [node]))

/-- The nodes that such a loop gets, if it does not stop before. -/
def visits (q : Query) : Exec (List DtbNode) :=
  loop (d.visitStep q) maxIterations (none, [])

/-- `search_node`. -/
def searchNode (nodeName : List (BitVec 8)) (currentNode : Option DtbNode) : Exec (Option DtbNode) :=
  d.search (nodeNamed nodeName) currentNode

/-- `search_node_by_compatible`. -/
def searchNodeByCompatible (compatible : List (BitVec 8)) (currentNode : Option DtbNode) :
    Exec (Option DtbNode) :=
  d.search (nodeCompatible compatible) currentNode

/-! ## Properties -/

/-- One iteration of the loop of `get_property`, which ends at each token but that of a property. -/
def getPropertyStep (propertyName : List (BitVec 8)) :
    ℕ × ℕ × ℕ → Exec (Iter (ℕ × ℕ × ℕ) (Option DtbProperty))
  | (p, cells) => do
    match ← d.skipNop (skipPadding p) with
    | none => pure (.done none)
    | some p =>
      if d.readNode p ≠ some fdtProp then pure (.done none)
      else
        match d.readNode (p + fdtTokenByte), d.readNode (p + fdtTokenByte + 4) with
        | some len, some nameSegment =>
          let len := fromBeBytes len
          let nameSegment := fromBeBytes nameSegment
          let p := p + fdtTokenByte + 4 + 4
          match d.checkAddressAndSizeCells nameSegment p cells with
          | none => pure (.done none)
          | some cells =>
            match d.compareNameSegment nameSegment propertyName [] with
            | none => pure (.done none)
            | some true => pure (.done (some ⟨p, cells.1, cells.2, len⟩))
            | some false => pure (.next (p + len, cells))
        | _, _ => pure (.done none)

/-- `get_property`. -/
def getProperty (node : DtbNode) (propertyName : List (BitVec 8)) : Exec (Option DtbProperty) :=
  loop (d.getPropertyStep propertyName) maxIterations
    (node.address, node.addressCells, node.sizeCells)

/-- The loops of `read_reg_property`, which shift `count` bytes into a number of 64 bits. -/
def readBytes (address count : ℕ) : ℕ :=
  (bytesAt d.memory address count).foldl (fun n b => (n <<< 8) % 2 ^ 64 ||| b.toNat) 0

/-- `read_reg_property`. -/
def readRegProperty (node : DtbNode) (index : ℕ) : Exec (Option (ℕ × ℕ)) := do
  match ← d.getProperty node propReg with
  | none => pure none
  | some info =>
    let cells ← checkedAdd 32 info.addressCells info.sizeCells
    let width ← checkedMul 64 cells 4
    let offset ← checkedMul 64 width index
    if info.len < (← checkedAdd 64 offset width) then pure none
    else
      let addressBytes ← checkedMul 32 info.addressCells 4
      let sizeBytes ← checkedMul 32 info.sizeCells 4
      pure (some (d.readBytes (info.address + offset) addressBytes,
        d.readBytes (info.address + offset + addressBytes) sizeBytes))

end Dtb

end MiniVisor
