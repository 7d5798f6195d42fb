import FrontEnd.Tree.Walk

/-! # Node stores

A store holds the nodes of one growing tree in an array, the root first. A new node takes the next index,
so an index never comes to stand for another node, and each node lies behind its parent. The subtree of a
node, as a rose tree, is the view through which the operations are understood.
-/

namespace FrontEnd

/-- A node of a store: its value, and the indexes of its children in their order. -/
structure Node (α : Type) where
  value : α
  children : Array Nat := #[]
  deriving DecidableEq

/-- The indexes of the children of the node at an index. -/
def childrenOf {α : Type} (nodes : Array (Node α)) (i : Nat) : List Nat :=
  match nodes[i]? with
  | some node => node.children.toList
  | none => []

/-- A tree as an array of nodes. There is a root, and children lie behind their parent. -/
structure NodeStore (α : Type) where
  nodes : Array (Node α)
  size_pos : 0 < nodes.size
  children_behind : ∀ i, ∀ c ∈ childrenOf nodes i, i < c ∧ c < nodes.size

namespace NodeStore

variable {α : Type}

def size (s : NodeStore α) : Nat := s.nodes.size

def root (s : NodeStore α) : Fin s.size := ⟨0, s.size_pos⟩

/-- The value of the node at an index. -/
def value? (s : NodeStore α) (i : Nat) : Option α := s.nodes[i]?.map (·.value)

/-- The indexes of the children of the node at an index. -/
def children (s : NodeStore α) (i : Nat) : List Nat := childrenOf s.nodes i

/-- The number of children of the node at an index. -/
def childCount (s : NodeStore α) (i : Nat) : Nat :=
  match s.nodes[i]? with
  | some node => node.children.size
  | none => 0

/-- The index of a child of the node at an index. -/
def child? (s : NodeStore α) (i k : Nat) : Option Nat :=
  s.nodes[i]?.bind fun node => node.children[k]?

/-- The values of all nodes in the order in which they were added. -/
def allData (s : NodeStore α) : List α := s.nodes.toList.map (·.value)

theorem childCount_eq_length (s : NodeStore α) (i : Nat) : s.childCount i = (s.children i).length := by
  unfold childCount children childrenOf
  cases s.nodes[i]? <;> rfl

theorem child?_eq_getElem? (s : NodeStore α) (i k : Nat) : s.child? i k = (s.children i)[k]? := by
  unfold child? children childrenOf
  cases s.nodes[i]? <;> simp

theorem lt_of_mem_children {s : NodeStore α} {i c : Nat} (h : c ∈ s.children i) : i < c :=
  (s.children_behind i c h).1

theorem lt_size_of_mem_children {s : NodeStore α} {i c : Nat} (h : c ∈ s.children i) : c < s.size :=
  (s.children_behind i c h).2

theorem mem_children_of_child? {s : NodeStore α} {i k c : Nat} (h : s.child? i k = some c) :
    c ∈ s.children i := by
  rw [child?_eq_getElem?] at h
  exact List.mem_of_getElem? h

theorem lt_of_child? {s : NodeStore α} {i k c : Nat} (h : s.child? i k = some c) : i < c :=
  lt_of_mem_children (mem_children_of_child? h)

/-! ## Operations -/

def singleton (value : α) : NodeStore α where
  nodes := #[{ value }]
  size_pos := by simp
  children_behind i c h := by
    cases i <;> simp [childrenOf] at h

/-- The store with another value at an index. -/
def setValue (s : NodeStore α) (i : Nat) (value : α) : NodeStore α where
  nodes := s.nodes.modify i fun node => { node with value }
  size_pos := by simpa using s.size_pos
  children_behind j c h := by
    have key : childrenOf (s.nodes.modify i fun node => { node with value }) j
        = childrenOf s.nodes j := by
      simp only [childrenOf, Array.getElem?_modify]
      by_cases hij : i = j
      · cases hj : s.nodes[j]? <;> simp [hij]
      · simp [hij]
    rw [key] at h
    simpa using s.children_behind j c h

/-- The array with a new node at its end that is the last child of the node at an index. -/
def pushChild (nodes : Array (Node α)) (i : Nat) (value : α) : Array (Node α) :=
  let next := nodes.size
  (nodes.modify i fun node => { node with children := node.children.push next }).push { value }

theorem childrenOf_pushChild (nodes : Array (Node α)) {i : Nat} (hi : i < nodes.size) (value : α)
    (j : Nat) :
    childrenOf (pushChild nodes i value) j
      = if j = i then childrenOf nodes j ++ [nodes.size] else childrenOf nodes j := by
  simp only [childrenOf, pushChild, Array.getElem?_push, Array.getElem?_modify, Array.size_modify]
  by_cases hj : j = nodes.size
  · subst hj
    have : ¬ nodes.size = i := by omega
    simp [this]
  · by_cases hji : j = i
    · subst hji
      simp [hj, hi]
    · have hij : ¬ i = j := fun h => hji h.symm
      simp [hj, hji, hij]

/-- The store with a new last child at an index. An index outside the store changes nothing. -/
def addChild (s : NodeStore α) (i : Nat) (value : α) : NodeStore α :=
  if hi : i < s.nodes.size then
    { nodes := pushChild s.nodes i value
      size_pos := by simp [pushChild]
      children_behind := by
        intro j c h
        have hsize : (pushChild s.nodes i value).size = s.nodes.size + 1 := by simp [pushChild]
        rw [childrenOf_pushChild s.nodes hi] at h
        rw [hsize]
        split at h
        · rename_i hji
          subst hji
          rcases List.mem_append.mp h with h | h
          · have := s.children_behind j c h
            omega
          · simp at h
            omega
        · have := s.children_behind j c h
          omega }
  else s

@[simp] theorem size_setValue (s : NodeStore α) (i : Nat) (value : α) :
    (s.setValue i value).size = s.size := by
  simp [size, setValue]

@[simp] theorem children_setValue (s : NodeStore α) (i j : Nat) (value : α) :
    (s.setValue i value).children j = s.children j := by
  simp only [children, setValue, childrenOf, Array.getElem?_modify]
  by_cases hij : i = j
  · cases hj : s.nodes[j]? <;> simp [hij]
  · simp [hij]

theorem value?_setValue (s : NodeStore α) (i j : Nat) (value : α) :
    (s.setValue i value).value? j = if j = i ∧ i < s.size then some value else s.value? j := by
  simp only [value?, setValue, Array.getElem?_modify, size]
  by_cases hij : i = j
  · subst hij
    by_cases hi : i < s.nodes.size <;> simp [hi]
  · have hji : ¬ j = i := fun h => hij h.symm
    simp [hij, hji]

theorem size_addChild (s : NodeStore α) {i : Nat} (hi : i < s.size) (value : α) :
    (s.addChild i value).size = s.size + 1 := by
  have hi' : i < s.nodes.size := hi
  simp [size, addChild, hi', pushChild]

theorem children_addChild (s : NodeStore α) {i : Nat} (hi : i < s.size) (value : α) (j : Nat) :
    (s.addChild i value).children j = if j = i then s.children j ++ [s.size] else s.children j := by
  have hi' : i < s.nodes.size := hi
  simp only [children, addChild, hi', dif_pos]
  exact childrenOf_pushChild s.nodes hi' value j

theorem value?_addChild (s : NodeStore α) {i : Nat} (hi : i < s.size) (value : α) (j : Nat) :
    (s.addChild i value).value? j = if j = s.size then some value else s.value? j := by
  have hi' : i < s.nodes.size := hi
  simp only [value?, addChild, hi', dif_pos, pushChild, Array.getElem?_push, Array.getElem?_modify,
    Array.size_modify, size]
  by_cases hj : j = s.nodes.size
  · simp [hj]
  · by_cases hij : i = j
    · cases h : s.nodes[j]? <;> simp [hj, hij]
    · simp [hj, hij]

mutual

/-- The store with a copy of a tree as the new last child at an index. -/
def graft (s : NodeStore α) (i : Nat) : RoseTree α → NodeStore α
  | .node value children =>
    let next := s.size
    graftAll (s.addChild i value) next children

/-- The store with copies of some trees as the new last children at an index. -/
def graftAll (s : NodeStore α) (i : Nat) : List (RoseTree α) → NodeStore α
  | [] => s
  | t :: ts => graftAll (s.graft i t) i ts

end

/-- The store with a copy of the tree below a source node as the new last child of a target node. The source
is read while the store grows. Nodes from `bound` on are copies: to come upon one of them in the source means
that there is always more to copy, and no result. -/
def copyUpTo? (bound : Nat) (s : NodeStore α) (source target : Nat) : Option (NodeStore α) :=
  if source < bound then do
    let value ← s.value? source
    let s := s.addChild target value
    match s.child? target (s.childCount target - 1) with
    | some copy =>
      (List.range (s.childCount source)).foldlM (fun s k =>
        match h : s.child? source k with
        | some child =>
          have : source < child := lt_of_child? h
          copyUpTo? bound s child copy
        | none => some s) s
    | none => some s
  else none
termination_by bound - source

/-- The copy as it reads without the proof that children lie behind their parent. -/
theorem copyUpTo?_eq (bound : Nat) (s : NodeStore α) (source target : Nat) :
    s.copyUpTo? bound source target
      = if source < bound then do
          let value ← s.value? source
          let s := s.addChild target value
          match s.child? target (s.childCount target - 1) with
          | some copy =>
            (List.range (s.childCount source)).foldlM (fun s k =>
              match s.child? source k with
              | some child => s.copyUpTo? bound child copy
              | none => some s) s
          | none => some s
        else none := by
  have hturn : ∀ (copy : Nat) (s : NodeStore α) (k : Nat),
      (match _h : s.child? source k with
        | some child => s.copyUpTo? bound child copy
        | none => some s)
      = match s.child? source k with
        | some child => s.copyUpTo? bound child copy
        | none => some s := by
    intro copy s k
    split <;> rename_i h <;> rw [h]
  rw [copyUpTo?]
  simp only [hturn]

/-- The store with a copy of a tree in it as the new last child of a target node. If the target lies below
the source, the copy never ends, and there is no result. -/
def copyWithin? (s : NodeStore α) (source target : Nat) : Option (NodeStore α) :=
  s.copyUpTo? s.size source target

/-- The store with `breadth` more children at an index, and each of the first `breadth` children filled in
the same way, `depth` levels deep. The children of a node are all added before the first of them is filled. -/
def fill (value : α) (breadth : Nat) : (depth : Nat) → (s : NodeStore α) → (i : Nat) → NodeStore α
  | 0, s, _ => s
  | depth + 1, s, i =>
    let s := Nat.repeat (fun s => s.addChild i value) breadth s
    (List.range breadth).foldl (fun s k =>
      match s.child? i k with
      | some child => fill value breadth depth s child
      | none => s) s

/-- The store of a tree that has been filled from its root. -/
def ofShape (value : α) (breadth depth : Nat) : NodeStore α :=
  fill value breadth depth (singleton value) 0

/-- The index at the end of a path. -/
def descend? (s : NodeStore α) : List Nat → (i : Nat) → Option Nat
  | [], i => if i < s.size then some i else none
  | k :: path, i => (s.children i)[k]?.bind (s.descend? path)

/-! ## Subtrees -/

/-- The children of a node as nodes of the store. -/
def childNodes (s : NodeStore α) (i : Fin s.size) : List (Fin s.size) :=
  (s.children i).attach.map fun c => ⟨c.1, lt_size_of_mem_children c.2⟩

theorem lt_of_mem_childNodes {s : NodeStore α} {i c : Fin s.size} (h : c ∈ s.childNodes i) : i < c := by
  obtain ⟨k, -, rfl⟩ := List.mem_map.mp h
  exact lt_of_mem_children k.2

/-- The value of a node of the store. -/
def value (s : NodeStore α) (i : Fin s.size) : α :=
  have : i < s.nodes.size := i.2
  s.nodes[i.1].value

def subtree (s : NodeStore α) (i : Fin s.size) : RoseTree α :=
  .node (s.value i) ((s.childNodes i).attach.map fun c => s.subtree c.1)
termination_by s.size - i
decreasing_by
  have := lt_of_mem_childNodes c.2
  omega

theorem subtree_eq (s : NodeStore α) (i : Fin s.size) :
    s.subtree i = .node (s.value i) ((s.childNodes i).map s.subtree) := by
  rw [subtree]
  simp

/-- The nodes of a store. A node weighs as much as the tree below it has nodes. -/
def walkable (s : NodeStore α) : Nodes (Fin s.size) α where
  value := s.value
  children := s.childNodes
  weight i := (s.subtree i).size
  children_lt i := by
    rw [s.subtree_eq i, RoseTree.size, RoseTree.sizeOfAll_eq_total, total_map]
    omega

/-- The values below a node in an order. -/
def collect (s : NodeStore α) (order : Order) (i : Fin s.size) : List α :=
  s.walkable.collect order i

end NodeStore

end FrontEnd
